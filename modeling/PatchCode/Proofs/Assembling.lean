import Mathlib.Tactic
import PatchCode.Assembly
import PatchCode.Proofs.Refusal

/-! What assembling yields, the log apart. Items are emitted one behind the other, a repeat is its
body written out so many times, and the numbers of lines matter to the log only. -/

namespace PatchCode

abbrev Yield := Except Fault (List Patch × Address)

namespace Yield

def andThen (y : Yield) (next : Address → Yield) : Yield :=
  y.bind fun (patches, address) => (next address).map fun (more, stop) => (patches ++ more, stop)

@[simp] theorem error_andThen (fault : Fault) (next : Address → Yield) :
    andThen (.error fault) next = .error fault := rfl

theorem ok_andThen (patches : List Patch) (a : Address) (next : Address → Yield) :
    andThen (.ok (patches, a)) next = (next a).map fun (more, stop) => (patches ++ more, stop) :=
  rfl

@[simp] theorem ok_nil_andThen (a : Address) (next : Address → Yield) :
    andThen (.ok ([], a)) next = next a := by
  rw [ok_andThen]
  cases next a <;> rfl

@[simp] theorem andThen_ok_nil (y : Yield) : (y.andThen fun a => .ok ([], a)) = y := by
  rcases y with fault | ⟨ps, a⟩
  · rfl
  · simp [ok_andThen, Except.map]

theorem andThen_assoc (y : Yield) (f g : Address → Yield) :
    (y.andThen f).andThen g = y.andThen fun a => (f a).andThen g := by
  rcases y with fault | ⟨ps, a⟩
  · rfl
  · rw [ok_andThen, ok_andThen]
    rcases f a with fault | ⟨qs, b⟩
    · rfl
    · simp only [Except.map, ok_andThen]
      cases g b with
      | error fault => rfl
      | ok r => simp

theorem andThen_eq_ok {y : Yield} {next : Address → Yield} {patches : List Patch} {stop : Address}
    (h : y.andThen next = .ok (patches, stop)) :
    ∃ front a back, y = .ok (front, a) ∧ next a = .ok (back, stop) ∧ patches = front ++ back := by
  rcases y with fault | ⟨front, a⟩
  · cases h
  rw [ok_andThen] at h
  rcases hnext : next a with fault | ⟨back, b⟩ <;> rw [hnext] at h <;> cases h
  exact ⟨front, a, back, rfl, hnext, rfl⟩

end Yield

namespace Assembly

variable (encode : Encoder)

@[simp] theorem result_emitAll_nil (a : Address) : (emitAll encode [] a).result = .ok ([], a) := rfl

theorem result_emitAll_cons (item : Outline) (items : List Outline) (a : Address) :
    (emitAll encode (item :: items) a).result =
      Yield.andThen (emit encode item a).result fun b => (emitAll encode items b).result := by
  rw [emitAll, Traced.result_bind]
  rfl

@[simp] theorem result_emitAll_singleton (item : Outline) (a : Address) :
    (emitAll encode [item] a).result = (emit encode item a).result := by
  simp [result_emitAll_cons]

theorem result_emitAll_append (xs ys : List Outline) (a : Address) :
    (emitAll encode (xs ++ ys) a).result =
      Yield.andThen (emitAll encode xs a).result fun b => (emitAll encode ys b).result := by
  induction xs generalizing a with
  | nil => simp
  | cons x xs ih => simp only [List.cons_append, result_emitAll_cons, ih, Yield.andThen_assoc]

/-- The body of a repeat, written out so many times. -/
theorem result_iterate (body : List Outline) (n : Nat) (a : Address) :
    (Traced.iterate (fun start => emitAll encode body start) n a).result =
      (emitAll encode (List.replicate n body).flatten a).result := by
  induction n generalizing a with
  | zero => rfl
  | succ n ih =>
    rw [Traced.iterate_succ, List.replicate_succ, List.flatten_cons, result_emitAll_append]
    change (_ >>= _ : Traced _).result = _
    simp only [Traced.result_bind]
    rcases (emitAll encode body a).result with fault | ⟨ps, b⟩
    · rfl
    · simp only [Yield.ok_andThen, ← ih b]
      change (_ >>= _ : Traced _).result = _
      rw [Traced.result_bind]
      rfl

section Items

variable (line : Source.Line) (body : List Outline) (a : Address)

@[simp] theorem result_emit_plain (act : Plain) :
    (emit encode (.leaf line (.ok act)) a).result = (emitPlain encode a act).result := by
  simp [emit, atLine]

@[simp] theorem result_emit_refused (fault : Fault) :
    (emit encode (.leaf line (.error fault)) a).result = .error fault := by
  simp [emit, atLine]

theorem result_emit_guard (name : String) (comparison : Comparison) (type : ValueType)
    (value : UInt32) :
    (emit encode (.nest line (.guard name comparison type value) body) a).result =
      (emitAll encode body a).result.map fun (patches, stop) =>
        ([.guard ⟨comparison, type, a, value⟩ patches], stop) := by
  simp only [emit, atLine, Traced.result_onRefusal, emitBody, Traced.result_bind,
    Traced.result_note, Traced.result_map]
  rfl

theorem result_emit_never :
    (emit encode (.nest line (.times 0) body) a).result =
      (emitAll encode body a).result.map fun _ => ([.group []], a) := by
  simp only [emit, atLine, Traced.result_onRefusal, emitBody, Traced.result_bind,
    Traced.result_note, Traced.result_map]
  rfl

theorem result_emit_times {n : Nat} (hn : 0 < n) :
    (emit encode (.nest line (.times n) body) a).result =
      (emitAll encode (List.replicate n body).flatten a).result.map fun (patches, stop) =>
        ([.group patches], stop) := by
  obtain ⟨n, rfl⟩ : ∃ k, n = k + 1 := ⟨n - 1, by omega⟩
  simp only [emit, atLine, Traced.result_onRefusal, emitBody, Traced.result_bind,
    Traced.result_note, Traced.result_map, result_iterate]
  rfl

end Items

end Assembly

/-- The part that a cleaned line plays in the nesting of a program. -/
inductive Role where
  | blank
  /-- It stands alone, or it is refused. -/
  | leaf (act : Except Fault Plain)
  | opens (head : Head)
  | closes

namespace Role

def ofReading : Except Fault Statement → Role
  | .ok (.plain act) => leaf (.ok act)
  | .ok (.opens head) => opens head
  | .ok .closes => closes
  | .error fault => leaf (.error fault)

def ofText (text : List Char) : Role :=
  if text.isEmpty then blank else ofReading (Statement.read text)

theorem read_of_leaf {text : List Char} {act : Plain} (h : ofText text = leaf (.ok act)) :
    Statement.read text = .ok (.plain act) := by
  unfold ofText at h
  split_ifs at h
  rcases hread : Statement.read text with fault | plain | head | _ <;> rw [hread] at h <;> cases h
  rfl

theorem read_of_opens {text : List Char} {head : Head} (h : ofText text = opens head) :
    Statement.read text = .ok (.opens head) := by
  unfold ofText at h
  split_ifs at h
  rcases hread : Statement.read text with fault | plain | head | _ <;> rw [hread] at h <;> cases h
  rfl

theorem ofText_of_read {text : List Char} {statement : Statement}
    (h : Statement.read text = .ok statement) :
    ofText text = ofReading (.ok statement) := by
  have hne : text ≠ [] := by rintro rfl; cases h
  rw [ofText, if_neg (by simpa using hne), h]

end Role

namespace Outline

theorem ofLines_cons (line : Source.Line) (rest : List Source.Line) :
    ofLines (line :: rest) =
      match Role.ofText line.text with
      | .blank => ofLines rest
      | .leaf act => (ofLines rest).push (.leaf line act)
      | .opens head => (ofLines rest).nest line head
      | .closes => .closed [] rest (ofLines rest) := by
  unfold Role.ofText
  rw [ofLines]
  split_ifs
  · rfl
  · rcases Statement.read line.text with fault | act | head | _ <;> rfl

mutual

def unnumbered : Outline → Outline
  | leaf line act => leaf ⟨0, line.text⟩ act
  | nest line head body => nest ⟨0, line.text⟩ head (allUnnumbered body)

def allUnnumbered : List Outline → List Outline
  | [] => []
  | item :: items => unnumbered item :: allUnnumbered items

end

namespace Levels

def unnumbered : Levels → Levels
  | last items => last (allUnnumbered items)
  | closed items rest next =>
    closed (allUnnumbered items) (rest.map fun line => ⟨0, line.text⟩) next.unnumbered

theorem items_unnumbered (levels : Levels) :
    levels.unnumbered.items = allUnnumbered levels.items := by
  cases levels <;> rfl

theorem unnumbered_push (item : Outline) (levels : Levels) :
    (levels.push item).unnumbered = levels.unnumbered.push item.unnumbered := by
  cases levels <;> rfl

theorem unnumbered_nest (line : Source.Line) (head : Head) (levels : Levels) :
    (levels.nest line head).unnumbered = levels.unnumbered.nest ⟨0, line.text⟩ head := by
  cases levels with
  | last body => rfl
  | closed body rest next => exact unnumbered_push _ next

end Levels

theorem forall_mem_copies {P : Outline → Prop} {body : List Outline}
    (h : ∀ item ∈ body, P item) (n : Nat) :
    ∀ item ∈ (List.replicate n body).flatten, P item := by
  intro item hitem
  obtain ⟨copy, hcopy, hitem⟩ := List.mem_flatten.mp hitem
  exact h item (List.eq_of_mem_replicate hcopy ▸ hitem)

def Levels.Forall (P : Outline → Prop) : Levels → Prop
  | last items => ∀ item ∈ items, P item
  | closed items _ next => (∀ item ∈ items, P item) ∧ next.Forall P

namespace Levels.Forall

variable {P : Outline → Prop} {levels : Levels}

theorem items (h : levels.Forall P) : ∀ item ∈ levels.items, P item := by
  cases levels with
  | last items => exact h
  | closed items rest next => exact h.1

theorem push {item : Outline} (hitem : P item) (h : levels.Forall P) :
    (levels.push item).Forall P := by
  cases levels with
  | last items => exact List.forall_mem_cons.mpr ⟨hitem, h⟩
  | closed items rest next => exact ⟨List.forall_mem_cons.mpr ⟨hitem, h.1⟩, h.2⟩

theorem nest {line : Source.Line} {head : Head}
    (hnest : ∀ body, (∀ item ∈ body, P item) → P (.nest line head body)) (h : levels.Forall P) :
    (levels.nest line head).Forall P := by
  cases levels with
  | last body => exact List.forall_mem_singleton.mpr (hnest body h)
  | closed body rest next => exact push (hnest body h.1) h.2

end Levels.Forall

theorem ofLines_unnumbered (lines : List Source.Line) :
    ofLines (lines.map fun line => ⟨0, line.text⟩) = (ofLines lines).unnumbered := by
  induction lines with
  | nil => rfl
  | cons line rest ih =>
    rw [List.map_cons, ofLines_cons, ofLines_cons, ih]
    cases Role.ofText line.text with
    | blank | closes => rfl
    | leaf act => simp only [Levels.unnumbered_push, unnumbered]
    | opens head => simp only [Levels.unnumbered_nest]

end Outline

namespace Assembly

variable (encode : Encoder)

/-- Only what its body yields counts for an opening line. -/
theorem result_emit_nest_congr {xs ys : List Outline}
    (h : ∀ a, (emitAll encode xs a).result = (emitAll encode ys a).result)
    (line line' : Source.Line) (head : Head) (a : Address) :
    (emit encode (.nest line head xs) a).result = (emit encode (.nest line' head ys) a).result := by
  cases head with
  | guard name comparison type value => rw [result_emit_guard, result_emit_guard, h]
  | times n =>
    rcases Nat.eq_zero_or_pos n with rfl | hn
    · rw [result_emit_never, result_emit_never, h]
    have hall : ∀ (n : Nat) (a : Address), (emitAll encode (List.replicate n xs).flatten a).result =
        (emitAll encode (List.replicate n ys).flatten a).result := by
      intro n
      induction n with
      | zero => intro a; rfl
      | succ n ih =>
        intro a
        simp only [List.replicate_succ, List.flatten_cons, result_emitAll_append, h, ih]
    rw [result_emit_times _ _ _ _ hn, result_emit_times _ _ _ _ hn, hall]

mutual

theorem result_emit_unnumbered : ∀ (item : Outline) (a : Address),
    (emit encode item.unnumbered a).result = (emit encode item a).result
  | .leaf _ (.ok _), a | .leaf _ (.error _), a => by simp [Outline.unnumbered]
  | .nest _ head body, a =>
    result_emit_nest_congr encode (result_emitAll_unnumbered body) _ _ head a

theorem result_emitAll_unnumbered : ∀ (items : List Outline) (a : Address),
    (emitAll encode (Outline.allUnnumbered items) a).result = (emitAll encode items a).result
  | [], _ => rfl
  | item :: items, a => by
    simp only [Outline.allUnnumbered, result_emitAll_cons, result_emit_unnumbered item,
      result_emitAll_unnumbered items]

end

end Assembly

namespace Source

def unnumbered (lines : List String) : List Line := lines.map fun line => ⟨0, clean line⟩

theorem unnumbered_eq (lines : List String) :
    unnumbered lines = (number lines).map fun line => ⟨0, line.text⟩ := by
  rw [number, List.map_map]
  conv_lhs => rw [← List.zipIdx_map_fst 1 lines]
  exact List.map_map

def role (line : String) : Role := Role.ofText (clean line)

theorem role_of_read {line : String} {statement : Statement}
    (h : Statement.read (clean line) = .ok statement) :
    role line = Role.ofReading (.ok statement) := Role.ofText_of_read h

def levels (lines : List String) : Outline.Levels := Outline.ofLines (unnumbered lines)

theorem levels_cons (line : String) (rest : List String) :
    levels (line :: rest) =
      match role line with
      | .blank => levels rest
      | .leaf act => (levels rest).push (.leaf ⟨0, clean line⟩ act)
      | .opens head => (levels rest).nest ⟨0, clean line⟩ head
      | .closes =>
        .closed [] (unnumbered rest) (levels rest) :=
          Outline.ofLines_cons ⟨0, clean line⟩ (unnumbered rest)

/-- To show something of every item of a program, show it of single lines, and of bodies given that
it holds of all that stands in them. -/
theorem forall_levels {P : Outline → Prop} {lines : List String}
    (hleaf : ∀ line ∈ lines, ∀ act, role line = .leaf act → P (.leaf ⟨0, clean line⟩ act))
    (hnest : ∀ line ∈ lines, ∀ head body, role line = .opens head → (∀ item ∈ body, P item) →
      P (.nest ⟨0, clean line⟩ head body)) : (levels lines).Forall P := by
  induction lines with
  | nil => exact List.forall_mem_nil P
  | cons line rest ih =>
    have hrest : (levels rest).Forall P :=
      ih (fun l hl => hleaf l (List.mem_cons_of_mem line hl)) fun l hl =>
        hnest l (List.mem_cons_of_mem line hl)
    rw [levels_cons]
    cases hrole : role line with
    | blank => exact hrest
    | leaf act => exact hrest.push (hleaf line List.mem_cons_self act hrole)
    | opens head => exact hrest.nest fun body => hnest line List.mem_cons_self head body hrole
    | closes => exact ⟨List.forall_mem_nil P, hrest⟩

end Source

/-- The line numbers have no part in what a program comes to. -/
theorem Assembly.result_emitAll_number (encode : Encoder) (lines : List String) (a : Address) :
    (emitAll encode (Outline.ofLines (Source.number lines)).items a).result =
      (emitAll encode (Source.levels lines).items a).result := by
  rw [Source.levels, Source.unnumbered_eq, Outline.ofLines_unnumbered,
    Outline.Levels.items_unnumbered, result_emitAll_unnumbered]

theorem result_assemble (encode : Encoder) (lines : List String) :
    (assemble encode lines).result =
      (Assembly.emitAll encode (Source.levels lines).items 0).result.map Prod.fst := by
  rw [← Assembly.result_emitAll_number, assemble, Traced.result_bind]
  rcases (Assembly.emitAll encode (Outline.ofLines (Source.number lines)).items 0).result with
    fault | ⟨ps, stop⟩
  · rfl
  · simp only [Except.bind, Except.map]
    split_ifs <;> simp [Except.bind]

end PatchCode
