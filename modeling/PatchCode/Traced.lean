import PatchCode.Event

/-! Computations that may be refused and that keep a log. What was logged before a refusal is
kept. -/

namespace PatchCode

structure Traced (α : Type) where
  events : List Event
  result : Except Fault α
  deriving Repr

namespace Traced

variable {α β σ : Type}

def bind (t : Traced α) (f : α → Traced β) : Traced β :=
  match t.result with
  | .ok a =>
    let u := f a
    ⟨t.events ++ u.events, u.result⟩
  | .error fault => ⟨t.events, .error fault⟩

def map (f : α → β) (t : Traced α) : Traced β := ⟨t.events, t.result.map f⟩

instance : Monad Traced where
  pure a := ⟨[], .ok a⟩
  bind := bind
  map := map

/-- Logs an event. -/
def note (event : Event) : Traced Unit := ⟨[event], .ok ()⟩

/-- A refusal, with nothing logged. -/
def refuse (fault : Fault) : Traced α := ⟨[], .error fault⟩

/-- Logs a refusal by what is made of its cause. -/
def onRefusal (t : Traced α) (event : Fault → Event) : Traced α :=
  match t.result with
  | .ok _ => t
  | .error fault => { t with events := t.events ++ [event fault] }

@[simp] theorem result_pure (a : α) : (pure a : Traced α).result = .ok a := rfl

@[simp] theorem result_map (f : α → β) (t : Traced α) : (t.map f).result = t.result.map f := rfl

@[simp] theorem result_bind (t : Traced α) (f : α → Traced β) :
    (t >>= f).result = t.result.bind fun a => (f a).result := by
  change (bind t f).result = _
  unfold bind
  cases t.result <;> rfl

@[simp] theorem result_note (event : Event) : (note event).result = .ok () := rfl

@[simp] theorem result_refuse (fault : Fault) : (refuse fault : Traced α).result = .error fault :=
  rfl

@[simp] theorem result_onRefusal (t : Traced α) (event : Fault → Event) :
    (t.onRefusal event).result = t.result := by
  unfold onRefusal
  cases h : t.result <;> simp [h]

/-- Runs a step `n` times in front of what is found so far, the latest first. -/
def iterateOnto (step : σ → Traced (List α × σ)) :
    Nat → σ → List Event → List α → Traced (List α × σ)
  | 0, s, events, found => ⟨events.reverse, .ok (found.reverse, s)⟩
  | n + 1, s, events, found =>
    let t := step s
    match t.result with
    | .ok (xs, s') => iterateOnto step n s' (t.events.reverse ++ events) (xs.reverse ++ found)
    | .error fault => ⟨events.reverse ++ t.events, .error fault⟩

/-- Runs a step `n` times, each from the state that the last one left, and collects what they
yield. -/
def iterate (step : σ → Traced (List α × σ)) (n : Nat) (s : σ) : Traced (List α × σ) :=
  iterateOnto step n s [] []

theorem iterateOnto_eq (step : σ → Traced (List α × σ)) (n : Nat) (s : σ) (events : List Event)
    (found : List α) :
    iterateOnto step n s events found =
      ⟨events.reverse ++ (iterate step n s).events,
        (iterate step n s).result.map fun (xs, s') => (found.reverse ++ xs, s')⟩ := by
  unfold iterate
  induction n generalizing s events found with
  | zero => simp [iterateOnto, Except.map]
  | succ n ih =>
    simp only [iterateOnto]
    cases h : (step s).result with
    | error fault => simp [Except.map]
    | ok r =>
      obtain ⟨xs, s'⟩ := r
      simp only
      rw [ih s' _ (xs.reverse ++ found), ih s' ((step s).events.reverse ++ []) (xs.reverse ++ [])]
      cases (iterateOnto step n s' [] []).result <;> simp [Except.map]

@[simp] theorem iterate_zero (step : σ → Traced (List α × σ)) (s : σ) :
    iterate step 0 s = pure ([], s) := rfl

theorem iterate_succ (step : σ → Traced (List α × σ)) (n : Nat) (s : σ) :
    iterate step (n + 1) s =
      ((step s).bind fun (xs, s') => (iterate step n s').bind fun (ys, s'') =>
        pure (xs ++ ys, s'')) := by
  rw [iterate, iterateOnto, bind]
  cases h : (step s).result with
  | error fault => simp
  | ok r =>
    obtain ⟨xs, s'⟩ := r
    simp only [iterateOnto_eq, bind]
    cases (iterate step n s').result <;> simp [Except.map, pure]

end Traced

end PatchCode
