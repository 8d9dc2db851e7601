import PatchCode.Proofs.BlockExtent

/-! A program read by recursive descent. A block is read line by line from a cursor; an opening line
has its body read as a block of its own, a repeat reads its body from copies of the cursor first,
and the reading goes on wherever the body has left the cursor. Each reading comes to one end, with
what the assembler makes of the same lines, and where it stops is told by the opening and closing
lines alone. -/

namespace PatchCode

structure Block where
  patches : List Patch
  stop : Stop
  cursor : Source.Cursor
  address : Address

def Block.push (front : List Patch) (block : Block) : Block :=
  { block with patches := front ++ block.patches }

namespace Descent

open Source (Cursor role)

mutual

inductive Takes (encode : Encoder) : Cursor → Address → Except Fault Block → Prop
  | exhausted {c : Cursor} {a : Address} :
      c.next? = none → Takes encode c a (.ok ⟨[], .exhausted, c, a⟩)
  | blank {c c' : Cursor} {a : Address} {n : Nat} {line : String} {out : Except Fault Block} :
      c.next? = some ((n, line), c') → role line = .blank → Takes encode c' a out →
      Takes encode c a out
  | closes {c c' : Cursor} {a : Address} {n : Nat} {line : String} :
      c.next? = some ((n, line), c') → role line = .closes →
      Takes encode c a (.ok ⟨[], .closed, c', a⟩)
  | refused {c c' : Cursor} {a : Address} {n : Nat} {line : String} {fault : Fault} :
      c.next? = some ((n, line), c') → Acts encode (role line) c' a (.error fault) →
      Takes encode c a (.error fault)
  | acts {c c' c'' : Cursor} {a b : Address} {n : Nat} {line : String} {front : List Patch}
      {out : Except Fault Block} :
      c.next? = some ((n, line), c') → Acts encode (role line) c' a (.ok (front, c'', b)) →
      Takes encode c'' b out → Takes encode c a (out.map (·.push front))

/-- What a line comes to, given the cursor behind it: its patches, the cursor behind its body and
the next address. -/
inductive Acts (encode : Encoder) :
    Role → Cursor → Address → Except Fault (List Patch × Cursor × Address) → Prop
  | leaf {c : Cursor} {a : Address} (act : Except Fault Plain) :
      Acts encode (.leaf act) c a
        ((act.bind fun act => (Assembly.emitPlain encode a act).result).map fun (patches, b) =>
          (patches, c, b))
  | guard {c : Cursor} {a : Address} {name : String} {comparison : Comparison} {type : ValueType}
      {value : UInt32} {out : Except Fault Block} :
      Takes encode c a out →
      Acts encode (.opens (.guard name comparison type value)) c a
        (out.map fun body =>
          ([.guard ⟨comparison, type, a, value⟩ body.patches], body.cursor, body.address))
  /-- The body of a repeat that is done no times is read, and the address is put back. -/
  | never {c : Cursor} {a : Address} {out : Except Fault Block} :
      Takes encode c a out →
      Acts encode (.opens (.times 0)) c a (out.map fun body => ([.group []], body.cursor, a))
  /-- All passes but the last read a copy of the cursor, and the last moves the cursor itself. -/
  | times {c : Cursor} {a b : Address} {n : Nat} {front : List Patch} {out : Except Fault Block} :
      Passes encode c n a (.ok (front, b)) → Takes encode c b out →
      Acts encode (.opens (.times (n + 1))) c a
        (out.map fun body => ([.group (front ++ body.patches)], body.cursor, body.address))
  | broken {c : Cursor} {a : Address} {n : Nat} {fault : Fault} :
      Passes encode c n a (.error fault) → Acts encode (.opens (.times (n + 1))) c a (.error fault)

/-- So many readings of a block from one cursor, each at the address that the one before has
left. -/
inductive Passes (encode : Encoder) : Cursor → Nat → Address → Yield → Prop
  | none {c : Cursor} {a : Address} : Passes encode c 0 a (.ok ([], a))
  | refused {c : Cursor} {a : Address} {n : Nat} {fault : Fault} :
      Takes encode c a (.error fault) → Passes encode c (n + 1) a (.error fault)
  | more {c : Cursor} {a : Address} {n : Nat} {body : Block} {rest : Yield} :
      Takes encode c a (.ok body) → Passes encode c n body.address rest →
      Passes encode c (n + 1) a (rest.map fun (patches, b) => (body.patches ++ patches, b))

end

/-- The reading of a block calls for the reading of another, the body of one of its opening lines:
once for a guard and for a repeat that is done no times, and otherwise for each pass at the address
that the passes before have left. -/
inductive Calls (encode : Encoder) : Cursor → Address → Cursor → Address → Prop
  | blank {c c' d : Cursor} {a b : Address} {n : Nat} {line : String} :
      c.next? = some ((n, line), c') → role line = .blank → Calls encode c' a d b →
      Calls encode c a d b
  | behind {c c' c'' d : Cursor} {a a' b : Address} {n : Nat} {line : String} {front : List Patch} :
      c.next? = some ((n, line), c') → Acts encode (role line) c' a (.ok (front, c'', a')) →
      Calls encode c'' a' d b → Calls encode c a d b
  | guard {c c' : Cursor} {a : Address} {n : Nat} {line name : String} {comparison : Comparison}
      {type : ValueType} {value : UInt32} :
      c.next? = some ((n, line), c') → role line = .opens (.guard name comparison type value) →
      Calls encode c a c' a
  | pass {c c' : Cursor} {a b : Address} {n i count : Nat} {line : String} {front : List Patch} :
      c.next? = some ((n, line), c') → role line = .opens (.times count) →
      Passes encode c' i a (.ok (front, b)) → i < max count 1 → Calls encode c a c' b

end Descent

/-- The block at a cursor as the assembler has it: the first level of the lines ahead. -/
def Assembly.block (encode : Encoder) (c : Source.Cursor) (a : Address) : Except Fault Block :=
  let levels := Outline.ofLines (Source.number c.rest)
  (emitAll encode levels.items a).result.map fun (patches, b) =>
    ⟨patches, levels.stop, c.skip (c.rest.length - levels.rest.length), b⟩

namespace Descent

open Source (Cursor role levels)
open Assembly (block emit emitAll)

variable (encode : Encoder)

theorem skip_rest_levels (c : Cursor) :
    c.skip (c.rest.length - (Outline.ofLines (Source.number c.rest)).rest.length) = c.extent.2 := by
  have hrest : (Outline.ofLines (Source.number c.rest)).rest.length = c.extent.2.rest.length := by
    rw [← Outline.Levels.length_rest_unnumbered, ← Outline.ofLines_unnumbered,
      ← Source.unnumbered_eq]
    have h := congrArg List.length (Source.levels_extent c).2.1
    rwa [Source.unnumbered, List.length_map] at h
  obtain ⟨n, hle, hn⟩ := c.exists_extent_eq
  rw [hrest, hn, Cursor.length_skip, Nat.sub_sub_self hle]

theorem block_eq (c : Cursor) (a : Address) :
    block encode c a = (emitAll encode (levels c.rest).items a).result.map fun (patches, b) =>
      ⟨patches, c.extent.1, c.extent.2, b⟩ := by
  have hstop : (Outline.ofLines (Source.number c.rest)).stop = c.extent.1 := by
    rw [← Outline.Levels.stop_unnumbered, ← Outline.ofLines_unnumbered, ← Source.unnumbered_eq]
    exact (Source.levels_extent c).1
  simp only [block, hstop, skip_rest_levels, Assembly.result_emitAll_number]

/-- A block that begins with an item is that item and the block that is read on from behind it. -/
theorem block_cons (c c' : Cursor) {item : Outline}
    (hitems : (levels c.rest).items = item :: (levels c'.rest).items)
    (hextent : c.extent = c'.extent) (a : Address) :
    block encode c a = (emit encode item a).result.bind fun (front, b) =>
      (block encode c' b).map (·.push front) := by
  simp only [block_eq, hitems, Assembly.result_emitAll_cons, hextent]
  rcases (emit encode item a).result with fault | ⟨front, b⟩
  · rfl
  · rw [Yield.ok_andThen]
    change _ = Except.map _ (Except.map _ (emitAll encode (levels c'.rest).items b).result)
    rcases (emitAll encode (levels c'.rest).items b).result with fault | ⟨patches, stop⟩ <;> rfl

section Rules

variable {encode} {c : Cursor} (htakes : ∀ a out, Takes encode c a out ↔ out = block encode c a)

include htakes

/-- Passes from one cursor are its block written out so many times, since each of them reads the
same lines. -/
theorem passes_iff (n : Nat) (a : Address) (y : Yield) :
    Passes encode c n a y ↔
      y = (emitAll encode (List.replicate n (levels c.rest).items).flatten a).result := by
  induction n generalizing a y with
  | zero =>
    constructor
    · rintro ⟨⟩
      rfl
    · rintro rfl
      exact .none
  | succ n ih =>
    rw [List.replicate_succ, List.flatten_cons, Assembly.result_emitAll_append]
    have hblock := block_eq encode c a
    -- the first pass decides whether there are more
    rcases hbody : (emitAll encode (levels c.rest).items a).result with fault | ⟨front, b⟩ <;>
      rw [hbody] at hblock
    · constructor
      · intro h
        cases h with
        | refused h => cases (htakes _ _).mp h |>.trans hblock; rfl
        | more h _ => cases (htakes _ _).mp h |>.trans hblock
      · rintro rfl
        exact .refused ((htakes _ _).mpr hblock.symm)
    · rw [Yield.ok_andThen]
      constructor
      · intro h
        cases h with
        | refused h => cases (htakes _ _).mp h |>.trans hblock
        | more h hrest =>
          cases (htakes _ _).mp h |>.trans hblock
          rw [(ih _ _).mp hrest]
      · rintro rfl
        exact .more ((htakes _ _).mpr hblock.symm) ((ih _ _).mpr rfl)

theorem acts_guard_iff (name : String) (comparison : Comparison) (type : ValueType) (value : UInt32)
    (a : Address) (out : Except Fault (List Patch × Cursor × Address)) :
    Acts encode (.opens (.guard name comparison type value)) c a out ↔
      out = (block encode c a).map fun body =>
      ([.guard ⟨comparison, type, a, value⟩ body.patches], body.cursor, body.address) := by
  constructor
  · intro h
    cases h with
    | guard h => rw [(htakes _ _).mp h]
  · rintro rfl
    exact .guard ((htakes _ _).mpr rfl)

theorem acts_never_iff (a : Address) (out : Except Fault (List Patch × Cursor × Address)) :
    Acts encode (.opens (.times 0)) c a out ↔
      out = (block encode c a).map fun body => ([.group []], body.cursor, a) := by
  constructor
  · intro h
    cases h with
    | never h => rw [(htakes _ _).mp h]
  · rintro rfl
    exact .never ((htakes _ _).mpr rfl)

theorem acts_times_iff (n : Nat) (a : Address)
    (out : Except Fault (List Patch × Cursor × Address)) :
    Acts encode (.opens (.times (n + 1))) c a out ↔
      out = (emitAll encode (List.replicate n (levels c.rest).items).flatten a).result.bind
        fun (front, b) =>
        (block encode c b).map fun body =>
          ([.group (front ++ body.patches)], body.cursor, body.address) := by
  have hpasses := passes_iff htakes n a
  generalize (emitAll encode (List.replicate n (levels c.rest).items).flatten a).result =
    y at hpasses ⊢
  rcases y with fault | ⟨front, b⟩
  · constructor
    · intro h
      cases h with
      | times h _ => cases (hpasses _).mp h
      | broken h => cases (hpasses _).mp h; rfl
    · rintro rfl
      exact .broken ((hpasses _).mpr rfl)
  · constructor
    · intro h
      cases h with
      | times h hlast =>
        cases (hpasses _).mp h
        rw [(htakes _ _).mp hlast]
        rfl
      | broken h => cases (hpasses _).mp h
    · rintro rfl
      exact .times ((hpasses _).mpr rfl) ((htakes _ _).mpr rfl)

/-- An opening line leaves the cursor where its body ends, and comes to what the assembler makes of
both. -/
theorem acts_opens_iff (head : Head) (line : Source.Line) (a : Address)
    (out : Except Fault (List Patch × Cursor × Address)) :
    Acts encode (.opens head) c a out ↔
      out = (emit encode (.nest line head (levels c.rest).items) a).result.map fun (patches, b) =>
        (patches, c.extent.2, b) := by
  rcases head with ⟨name, comparison, type, value⟩ | _ | n
  · rw [acts_guard_iff htakes, Assembly.result_emit_guard, block_eq]
    rcases (emitAll encode (levels c.rest).items a).result with fault | ⟨patches, b⟩ <;> rfl
  · rw [acts_never_iff htakes, Assembly.result_emit_never, block_eq]
    rcases (emitAll encode (levels c.rest).items a).result with fault | ⟨patches, b⟩ <;> rfl
  · rw [acts_times_iff htakes, Assembly.result_emit_times _ _ _ _ n.succ_pos, List.replicate_succ',
      List.flatten_append, List.flatten_singleton, Assembly.result_emitAll_append]
    simp only [block_eq]
    rcases (emitAll encode (List.replicate n (levels c.rest).items).flatten a).result with
      fault | ⟨front, b⟩
    · rfl
    · rw [Yield.ok_andThen]
      simp only [Except.bind]
      rcases (emitAll encode (levels c.rest).items b).result with fault | ⟨patches, b⟩ <;> rfl

end Rules

theorem acts_leaf_iff (act : Except Fault Plain) (line : Source.Line) (c : Cursor) (a : Address)
    (out : Except Fault (List Patch × Cursor × Address)) :
    Acts encode (.leaf act) c a out ↔
      out = (emit encode (.leaf line act) a).result.map fun (patches, b) => (patches, c, b) := by
  have hvalue : (emit encode (.leaf line act) a).result =
      act.bind fun act => (Assembly.emitPlain encode a act).result := by
    cases act with
    | error fault => exact Assembly.result_emit_refused encode line a fault
    | ok act => exact Assembly.result_emit_plain encode line a act
  rw [hvalue]
  constructor
  · rintro ⟨⟩
    rfl
  · rintro rfl
    exact .leaf act

section Lines

variable {k : Nat} {line : String} {rest : List String} {a : Address} {out : Except Fault Block}

theorem takes_nil_iff : Takes encode ⟨k, []⟩ a out ↔ out = .ok ⟨[], .exhausted, ⟨k, []⟩, a⟩ := by
  constructor
  · intro h
    cases h with
    | exhausted hnext => rfl
    | blank hnext _ | closes hnext _ | refused hnext _ | acts hnext _ _ => cases hnext
  · rintro rfl
    exact .exhausted rfl

theorem takes_blank_iff (hrole : role line = .blank) :
    Takes encode ⟨k, line :: rest⟩ a out ↔ Takes encode ⟨k + 1, rest⟩ a out := by
  constructor
  · intro h
    cases h with
    | exhausted hnext => cases hnext
    | blank hnext _ h => cases hnext; exact h
    | closes hnext h => cases hnext; cases hrole.symm.trans h
    | refused hnext h | acts hnext h _ => cases hnext; rw [hrole] at h; cases h
  · exact .blank rfl hrole

theorem takes_closes_iff (hrole : role line = .closes) :
    Takes encode ⟨k, line :: rest⟩ a out ↔ out = .ok ⟨[], .closed, ⟨k + 1, rest⟩, a⟩ := by
  constructor
  · intro h
    cases h with
    | exhausted hnext => cases hnext
    | blank hnext h => cases hnext; cases hrole.symm.trans h
    | closes hnext h => cases hnext; rfl
    | refused hnext h | acts hnext h _ => cases hnext; rw [hrole] at h; cases h
  · rintro rfl
    exact .closes rfl hrole

theorem takes_acts_iff {c' : Cursor} {y : Yield} (hblank : role line ≠ .blank)
    (hcloses : role line ≠ .closes) (hacts : ∀ out, Acts encode (role line) ⟨k + 1, rest⟩ a out ↔
      out = y.map fun (patches, b) => (patches, c', b))
    (htakes : ∀ a out, Takes encode c' a out ↔ out = block encode c' a) :
    Takes encode ⟨k, line :: rest⟩ a out ↔
      out = y.bind fun (front, b) => (block encode c' b).map (·.push front) := by
  constructor
  · intro h
    cases h with
    | exhausted hnext => cases hnext
    | blank hnext h => cases hnext; exact absurd h hblank
    | closes hnext h => cases hnext; exact absurd h hcloses
    | refused hnext h =>
      cases hnext
      rcases y with fault | ⟨front, b⟩ <;> cases (hacts _).mp h
      rfl
    | acts hnext h hrest =>
      cases hnext
      rcases y with fault | ⟨front, b⟩ <;> cases (hacts _).mp h
      rw [(htakes _ _).mp hrest]
      rfl
  · rintro rfl
    rcases y with fault | ⟨front, b⟩
    · exact .refused rfl ((hacts _).mpr rfl)
    · exact .acts rfl ((hacts _).mpr rfl) ((htakes _ _).mpr rfl)

end Lines

/-- Reading by recursive descent comes to an end from every cursor, and to what the assembler makes
of the lines. -/
theorem takes_iff (c : Cursor) (a : Address) (out : Except Fault Block) :
    Takes encode c a out ↔ out = block encode c a := by
  -- on the number of lines ahead: a body starts behind its opening line, and what is read behind
  -- the body starts later still
  induction hlength : c.rest.length using Nat.strong_induction_on generalizing c a out with
  | _ length ih =>
  obtain ⟨k, _ | ⟨line, rest⟩⟩ := c
  · exact takes_nil_iff encode
  have hrest : ∀ a out, Takes encode ⟨k + 1, rest⟩ a out ↔
      out = block encode ⟨k + 1, rest⟩ a := fun a out =>
    ih rest.length (by rw [← hlength]; exact Nat.lt_succ_self _) ⟨k + 1, rest⟩ a out rfl
  have hlevels := Source.levels_cons line rest
  have hextent := Cursor.extent_cons k line rest
  cases hrole : role line <;> rw [hrole] at hlevels hextent
  case blank =>
    rw [takes_blank_iff encode hrole, hrest, block_eq, block_eq, hlevels, hextent]
  case closes =>
    rw [takes_closes_iff encode hrole, block_eq, hlevels, hextent]
    rfl
  case leaf act =>
    have hitems : (levels (line :: rest)).items =
        .leaf ⟨0, Source.clean line⟩ act :: (levels rest).items := by
      rw [hlevels, Outline.Levels.items_push]
    rw [block_cons encode ⟨k, line :: rest⟩ ⟨k + 1, rest⟩ hitems hextent]
    exact takes_acts_iff encode (by simp [hrole]) (by simp [hrole])
      (fun out => hrole ▸ acts_leaf_iff encode act _ _ a out) hrest
  case opens head =>
    -- the reading goes on where the body has left the cursor, whether it was closed or not
    have hbehind : ∀ a out, Takes encode (Cursor.extent ⟨k + 1, rest⟩).2 a out ↔
        out = block encode (Cursor.extent ⟨k + 1, rest⟩).2 a := fun a out =>
      ih _ (by rw [← hlength]; exact Nat.lt_succ_of_le (Cursor.length_extent_le ⟨k + 1, rest⟩))
        _ a out rfl
    have hitems : (levels (line :: rest)).items =
        .nest ⟨0, Source.clean line⟩ head (levels rest).items ::
        (levels (Cursor.extent ⟨k + 1, rest⟩).2.rest).items := by
      rw [hlevels, Outline.Levels.items_nest_next, (Source.levels_extent ⟨k + 1, rest⟩).2.2]
    rw [block_cons encode ⟨k, line :: rest⟩ (Cursor.extent ⟨k + 1, rest⟩).2 hitems hextent]
    exact takes_acts_iff encode (by simp [hrole]) (by simp [hrole])
      (fun out => hrole ▸ acts_opens_iff hrest head _ a out) hbehind

variable {encode}

theorem extent_of_takes {c : Cursor} {a : Address} {body : Block}
    (h : Takes encode c a (.ok body)) :
    c.extent = (body.stop, body.cursor) := by
  rw [takes_iff, block_eq] at h
  obtain ⟨⟨patches, b⟩, -, rfl⟩ := exists_of_map_eq_ok h.symm
  rfl

theorem exists_skip_of_acts {r : Role} {c c' : Cursor} {a b : Address} {front : List Patch}
    (h : Acts encode r c a (.ok (front, c', b))) : ∃ n ≤ c.rest.length, c' = c.skip n := by
  cases r with
  | blank | closes => cases h
  | leaf act =>
    obtain ⟨_, -, hstop⟩ := exists_of_map_eq_ok ((acts_leaf_iff encode act ⟨0, []⟩ c a _).mp h).symm
    exact ⟨0, Nat.zero_le _, (Prod.mk.inj (Prod.mk.inj hstop).2).1.symm⟩
  | opens head =>
    obtain ⟨_, -, hstop⟩ :=
      exists_of_map_eq_ok ((acts_opens_iff (takes_iff encode c) head ⟨0, []⟩ a _).mp h).symm
    rw [← (Prod.mk.inj (Prod.mk.inj hstop).2).1]
    exact c.exists_extent_eq

theorem skip_of_next? {c c' : Cursor} {numbered : Nat × String}
    (h : c.next? = some (numbered, c')) :
    1 ≤ c.rest.length ∧ c' = c.skip 1 := by
  obtain ⟨k, _ | ⟨line, rest⟩⟩ := c <;> cases h
  exact ⟨Nat.succ_pos _, rfl⟩

theorem exists_skip_of_calls {c d : Cursor} {a b : Address} (h : Calls encode c a d b) :
    ∃ n, 0 < n ∧ n ≤ c.rest.length ∧ d = c.skip n := by
  induction h with
  | blank hnext _ _ ih =>
    obtain ⟨hle, rfl⟩ := skip_of_next? hnext
    obtain ⟨n, -, hn, rfl⟩ := ih
    rw [Cursor.length_skip] at hn
    exact ⟨1 + n, by omega, by omega, Cursor.skip_skip _ _ _⟩
  | behind hnext hacts _ ih =>
    obtain ⟨hle, rfl⟩ := skip_of_next? hnext
    obtain ⟨m, hm, rfl⟩ := exists_skip_of_acts hacts
    obtain ⟨n, -, hn, rfl⟩ := ih
    rw [Cursor.length_skip] at hm
    rw [Cursor.length_skip, Cursor.length_skip] at hn
    exact ⟨1 + (m + n), by omega, by omega, by rw [Cursor.skip_skip, Cursor.skip_skip]⟩
  | guard hnext _ | pass hnext _ _ _ =>
    obtain ⟨hle, rfl⟩ := skip_of_next? hnext
    exact ⟨1, Nat.one_pos, hle, rfl⟩

end Descent

/-- From every cursor and address, reading a block by recursive descent comes to exactly one
outcome, which is what the assembler makes of the same lines, and each body is read from a later
line than the block that it stands in. A block that is not refused ends behind the first closing
line that has no opening line, or at the end if there is none; another encoder, another address,
other labels and other counts of repeats do not move that place. -/
theorem takes_block (encode : Encoder) (c : Source.Cursor) (a : Address) :
    (∃! out, Descent.Takes encode c a out) ∧ Descent.Takes encode c a (Assembly.block encode c a) ∧
      (∀ d b, Descent.Calls encode c a d b → ∃ n, 0 < n ∧ n ≤ c.rest.length ∧ d = c.skip n) ∧
      (∀ body, Descent.Takes encode c a (.ok body) →
        ((∃ i, Source.ClosesAt 0 c.rest i ∧ body.stop = .closed ∧ body.cursor = c.skip (i + 1)) ∨
            (∀ i, ¬ Source.ClosesAt 0 c.rest i) ∧ body.stop = .exhausted ∧
            body.cursor = c.skip c.rest.length) ∧
          ∀ (encode' : Encoder) (lines' : List String) (a' : Address) (body' : Block),
            List.Forall₂ Relaid c.rest lines' →
            Descent.Takes encode' ⟨c.consumed, lines'⟩ a' (.ok body') →
              body'.stop = body.stop ∧ body'.cursor.consumed = body.cursor.consumed) ∧
      ∀ lines, (assemble encode lines).result =
        (Assembly.block encode (.ofLines lines) 0).map (·.patches) := by
  have htakes := Descent.takes_iff encode c a
  refine ⟨⟨_, (htakes _).mpr rfl, fun out h => (htakes out).mp h⟩, (htakes _).mpr rfl,
    fun d b h => Descent.exists_skip_of_calls h, fun body hbody => ⟨?_, ?_⟩, fun lines => ?_⟩
  · have hextent := Descent.extent_of_takes hbody
    rcases c.ends_extent with ⟨i, hi, hfound⟩ | ⟨hnone, hfound⟩
    · obtain ⟨hstop, hcursor⟩ := Prod.mk.inj (hextent.symm.trans hfound)
      exact .inl ⟨i, hi, hstop, hcursor⟩
    · obtain ⟨hstop, hcursor⟩ := Prod.mk.inj (hextent.symm.trans hfound)
      exact .inr ⟨hnone, hstop, hcursor⟩
  · intro encode' lines' a' body' hlines hbody'
    obtain ⟨hstop, hconsumed⟩ := Source.extentFrom_relaid hlines 0 c.consumed
    have hextent := Descent.extent_of_takes hbody
    have hextent' := Descent.extent_of_takes hbody'
    rw [Source.Cursor.extent] at hextent hextent'
    rw [hextent, hextent'] at hstop hconsumed
    exact ⟨hstop.symm, hconsumed.symm⟩
  · rw [result_assemble, Descent.block_eq]
    change _ =
      Except.map _ (Except.map _ (Assembly.emitAll encode (Source.levels lines).items 0).result)
    rcases (Assembly.emitAll encode (Source.levels lines).items 0).result with fault |
      ⟨patches, b⟩ <;> rfl

/-- A repeat and a guard in it, with a closing line too many and a line behind it that is not
read. -/
def nestedBodies (opening : String) : List String :=
  [opening, "!u8 equal 1 ; guard", ".u8 7", "!end", "nop", "!end", "!end", "?"]

/-- Done twice, and done no times with another encoder and at another address, the block ends at the
same line. -/
theorem takes_nestedBodies :
    (Descent.Calls powerPC ⟨1, nestedBodies "!repeat 2"⟩ 0 ⟨2, (nestedBodies "!repeat 2").tail⟩ 0 ∧
      ∃ n, 0 < n ∧ n ≤ (nestedBodies "!repeat 2").length ∧
        ⟨2, (nestedBodies "!repeat 2").tail⟩ = Source.Cursor.skip ⟨1, nestedBodies "!repeat 2"⟩ n) ∧
      List.Forall₂ Relaid (nestedBodies "!repeat 2") (nestedBodies "!repeat 0") ∧
      Source.ClosesAt 0 (nestedBodies "!repeat 2") 6 ∧
      ∃ body body' : Block, Descent.Takes powerPC ⟨1, nestedBodies "!repeat 2"⟩ 0 (.ok body) ∧
        Descent.Takes (fun _ _ _ => pure 7) ⟨1, nestedBodies "!repeat 0"⟩ 0x10 (.ok body') ∧
        (∃ i, Source.ClosesAt 0 (nestedBodies "!repeat 2") i ∧
          body.cursor = Source.Cursor.skip ⟨1, nestedBodies "!repeat 2"⟩ (i + 1)) ∧
        body.stop = .closed ∧ body.cursor = ⟨8, ["?"]⟩ ∧ body'.stop = .closed ∧
        body'.cursor.consumed = 8 := by
  have htwice : Statement.read (Source.clean "!repeat 2") = .ok (.opens (.times 2)) := by
    decide +kernel
  have hnever : Statement.read (Source.clean "!repeat 0") = .ok (.opens (.times 0)) := by
    decide +kernel
  have hcalls : Descent.Calls powerPC ⟨1, nestedBodies "!repeat 2"⟩ 0
      ⟨2, (nestedBodies "!repeat 2").tail⟩ 0 :=
    .pass rfl (Source.role_of_read htwice) .none (by decide)
  have hlines : List.Forall₂ Relaid (nestedBodies "!repeat 2") (nestedBodies "!repeat 0") :=
    .cons (.times htwice hnever) (List.forall₂_same.mpr fun line _ => .same line)
  have hblock : ((Assembly.block powerPC ⟨1, nestedBodies "!repeat 2"⟩ 0).map fun body =>
      (body.stop, body.cursor)) = .ok (.closed, ⟨8, ["?"]⟩) := by decide +kernel
  have hblock' : (Assembly.block (fun _ _ _ => pure 7) ⟨1, nestedBodies "!repeat 0"⟩ 0x10).map
      (fun _ => ()) = .ok () := by
    decide +kernel
  obtain ⟨body, hbody, hstop⟩ := exists_of_map_eq_ok hblock
  obtain ⟨body', hbody', -⟩ := exists_of_map_eq_ok hblock'
  obtain ⟨hstop, hcursor⟩ := Prod.mk.inj hstop
  obtain ⟨-, htakes, hlater, hend, -⟩ := takes_block powerPC ⟨1, nestedBodies "!repeat 2"⟩ 0
  obtain ⟨-, htakes', -, -, -⟩ :=
    takes_block (fun _ _ _ => pure 7) ⟨1, nestedBodies "!repeat 0"⟩ 0x10
  rw [hbody] at htakes
  rw [hbody'] at htakes'
  obtain ⟨hends, hsame⟩ := hend body htakes
  have hfirst : ∃ i, Source.ClosesAt 0 (nestedBodies "!repeat 2") i ∧
      body.cursor = Source.Cursor.skip ⟨1, nestedBodies "!repeat 2"⟩ (i + 1) := by
    rcases hends with ⟨i, hi, -, hplace⟩ | ⟨-, hexhausted, -⟩
    · exact ⟨i, hi, hplace⟩
    · cases hstop.symm.trans hexhausted
  obtain ⟨hstop', hconsumed⟩ := hsame _ _ _ body' hlines htakes'
  refine ⟨⟨hcalls, hlater _ _ hcalls⟩, hlines, by decide +kernel, body, body', htakes, htakes',
    hfirst, hstop, hcursor, hstop'.trans hstop, ?_⟩
  rw [hconsumed, hcursor]

end PatchCode
