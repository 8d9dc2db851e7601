import Mathlib.Tactic
import PatchCode.Proofs.Address
import PatchCode.Proofs.Assembling

/-! Where the parts of a program come to stand. The statements of a program take effect one after
the other, repeats written out; each write and each adjustment stands where the one before it stops,
instructions on the next multiple of four, and a guard stands where the next part would begin. -/

namespace PatchCode

namespace Outline

mutual

/-- The statements in the order in which they take effect. A guard comes before its body, and a
repeat is its body as often as it says. -/
def executed : Outline → List Statement
  | leaf _ (.ok act) => [.plain act]
  | leaf _ (.error _) => []
  | nest _ (.guard name comparison type value) body =>
    .opens (.guard name comparison type value) :: allExecuted body
  | nest _ (.times count) body => (List.replicate count (allExecuted body)).flatten

def allExecuted : List Outline → List Statement
  | [] => []
  | item :: items => executed item ++ allExecuted items

end

end Outline

inductive Mark where
  | write (data : Write)
  | adjust (adjustment : Adjustment)
  | guard (condition : Condition)
  deriving Repr, DecidableEq

namespace Mark

def address : Mark → Address
  | write data => data.address
  | adjust adjustment => adjustment.address
  | guard condition => condition.address

/-- Where the last write or adjustment stops, given where the last one before this part stops. -/
def stopAfter (stop : Address) : Mark → Address
  | write data => data.stop
  | adjust adjustment => adjustment.address.advance adjustment.type.size
  | guard _ => stop

end Mark

namespace Patch

mutual

def marks : Patch → List Mark
  | write data => [.write data]
  | adjust adjustment => [.adjust adjustment]
  | block body | group body => allMarks body
  | guard condition body => .guard condition :: allMarks body

def allMarks : List Patch → List Mark
  | [] => []
  | p :: ps => marks p ++ allMarks ps

end

theorem allMarks_append (ps qs : List Patch) :
    allMarks (ps ++ qs) = allMarks ps ++ allMarks qs := by
  induction ps with
  | nil => rfl
  | cons p ps ih => simp only [List.cons_append, allMarks, ih, List.append_assoc]

theorem allMarks_singleton (p : Patch) : allMarks [p] = marks p := by
  simp only [allMarks, List.append_nil]

end Patch

namespace Statement

def isLabel : Statement → Bool
  | plain (.label _) => true
  | _ => false

def isInstruction : Statement → Bool
  | plain (.instruction ..) => true
  | _ => false

def leavesMark : Statement → Bool
  | plain (.data _ bytes) => !bytes.isEmpty
  | plain (.instruction ..) | plain (.adjust ..) | opens (.guard ..) => true
  | plain (.label _) | opens (.times _) | closes => false

/-- The part is what the statement comes to, wherever it stands. -/
def Makes (encode : Encoder) : Statement → Mark → Prop
  | plain (.data _ bytes), .write data => data.bytes = bytes
  | plain (.instruction mnemonic operands), .write data =>
    ∃ word, (encode mnemonic operands data.address).result = .ok word ∧
      data.bytes = Bytes.ofWord word
  | plain (.adjust _ change type value), .adjust a =>
    a.change = change ∧ a.type = type ∧ a.value = value
  | opens (.guard _ comparison type value), .guard c =>
    c.comparison = comparison ∧ c.type = type ∧ c.value = value
  | _, _ => False

/-- Where the part that a statement comes to stands, behind one that stops at the given address. -/
def start (stop : Address) (s : Statement) : Address :=
  if s.isInstruction then .ofNat ((stop.toNat + 3) / 4 * 4) else stop

end Statement

/-- Every part stands where the last write or adjustment before it stops, those of instructions on
the next multiple of four. -/
inductive Contiguous : Address → List (Statement × Mark) → Prop
  | nil {stop : Address} : Contiguous stop []
  | cons {stop : Address} {s : Statement} {mark : Mark} {rest : List (Statement × Mark)} :
      mark.address = s.start stop → Contiguous (mark.stopAfter stop) rest →
      Contiguous stop ((s, mark) :: rest)

theorem Contiguous.append {stop : Address} {xs ys : List (Statement × Mark)}
    (hxs : Contiguous stop xs) (hys : Contiguous ((xs.map Prod.snd).foldl Mark.stopAfter stop) ys) :
    Contiguous stop (xs ++ ys) := by
  induction hxs with
  | nil => exact hys
  | cons haddress _ ih => exact .cons haddress (ih hys)

/-- From the address `a` on, the statements come to the parts and leave off at `stop`. -/
structure Laid (encode : Encoder) (a : Address) (statements : List Statement) (marks : List Mark)
    (stop : Address) :
    Prop where
  makes : List.Forall₂ (Statement.Makes encode) (statements.filter Statement.leavesMark) marks
  contiguous : Contiguous a ((statements.filter Statement.leavesMark).zip marks)
  stops : marks.foldl Mark.stopAfter a = stop

namespace Laid

variable {encode : Encoder} {a b c : Address}

theorem nil : Laid encode a [] [] a := ⟨.nil, .nil, rfl⟩

theorem append {xs ys : List Statement} {ms ns : List Mark} (h : Laid encode a xs ms b)
    (h' : Laid encode b ys ns c) :
    Laid encode a (xs ++ ys) (ms ++ ns) c := by
  have hlen := h.makes.length_eq
  refine ⟨?_, ?_, ?_⟩
  · rw [List.filter_append]
    exact List.rel_append h.makes h'.makes
  · rw [List.filter_append, List.zip_append hlen]
    refine h.contiguous.append ?_
    rw [List.map_snd_zip hlen.ge, h.stops]
    exact h'.contiguous
  · rw [List.foldl_append, h.stops, h'.stops]

/-- A statement that comes to one part. -/
theorem single {s : Statement} {mark : Mark} (hs : s.leavesMark = true)
    (hmakes : s.Makes encode mark) (haddress : mark.address = s.start a) :
    Laid encode a [s] [mark] (mark.stopAfter a) := by
  refine ⟨?_, ?_, rfl⟩ <;> rw [List.filter_cons_of_pos hs, List.filter_nil]
  · exact .cons hmakes .nil
  · exact .cons haddress .nil

end Laid

namespace Assembly

variable {encode : Encoder} {a stop : Address} {patches : List Patch}

theorem laid_emitPlain {act : Plain} (hlabel : (Statement.plain act).isLabel = false)
    (h : (emitPlain encode a act).result = .ok (patches, stop)) :
    Laid encode a [.plain act] (Patch.allMarks patches) stop := by
  cases act with
  | label target => cases hlabel
  | data name bytes =>
    rw [emitPlain] at h
    split_ifs at h with hbytes
    · cases h
      have hnone : [Statement.plain (.data name bytes)].filter Statement.leavesMark = [] := by
        simp [Statement.leavesMark, hbytes]
      exact ⟨by rw [hnone]; exact .nil, by rw [hnone]; exact .nil, rfl⟩
    · cases h
      exact .single (by simpa [Statement.leavesMark] using hbytes) rfl rfl
  | instruction mnemonic operands =>
    rw [emitPlain, Traced.result_bind] at h
    rcases hword : (encode mnemonic operands (a.alignUp 4)).result with fault | word <;>
      rw [hword] at h <;> cases h
    have hmakes : (Statement.plain (.instruction mnemonic operands)).Makes encode
        (.write ⟨a.alignUp 4, Bytes.ofWord word⟩) := ⟨word, hword, rfl⟩
    exact .single rfl hmakes a.alignUp_four
  | adjust name change type value =>
    cases h
    exact .single rfl ⟨rfl, rfl, rfl⟩ rfl

/-- What a body comes to each time that it is done, it comes to in a row. -/
theorem laid_replicate {body : List Outline} {statements : List Statement}
    (hbody : ∀ {a patches stop}, (emitAll encode body a).result = .ok (patches, stop) →
      Laid encode a statements (Patch.allMarks patches) stop) (n : Nat)
    (h : (emitAll encode (List.replicate n body).flatten a).result = .ok (patches, stop)) :
    Laid encode a (List.replicate n statements).flatten (Patch.allMarks patches) stop := by
  induction n generalizing a patches with
  | zero => cases h; exact .nil
  | succ n ih =>
    rw [List.replicate_succ, List.flatten_cons, result_emitAll_append] at h
    obtain ⟨front, b, back, hfront, hback, rfl⟩ := Yield.andThen_eq_ok h
    rw [List.replicate_succ, List.flatten_cons, Patch.allMarks_append]
    exact (hbody hfront).append (ih hback)

mutual

theorem laid_emit : ∀ {item : Outline} {a : Address} {patches : List Patch} {stop : Address},
    (∀ s ∈ item.executed, s.isLabel = false) → (emit encode item a).result = .ok (patches, stop) →
    Laid encode a item.executed (Patch.allMarks patches) stop
  | .leaf _ (.ok act), _, _, _, hlabels, h =>
    laid_emitPlain (hlabels _ List.mem_cons_self) ((result_emit_plain ..).symm.trans h)
  | .leaf _ (.error _), _, _, _, _, h => by
    rw [result_emit_refused] at h
    cases h
  | .nest _ (.guard name comparison type value) body, a, _, _, hlabels, h => by
    rw [result_emit_guard] at h
    obtain ⟨⟨ps, stop⟩, hbody, heq⟩ := exists_of_map_eq_ok h
    cases heq
    have hhead : Laid encode a [.opens (.guard name comparison type value)]
        [.guard ⟨comparison, type, a, value⟩] a := .single rfl ⟨rfl, rfl, rfl⟩ rfl
    rw [Patch.allMarks_singleton]
    exact hhead.append (laid_emitAll (fun s hs => hlabels s (List.mem_cons_of_mem _ hs)) hbody)
  | .nest _ (.times 0) body, _, _, _, _, h => by
    rw [result_emit_never] at h
    obtain ⟨⟨ps, b⟩, -, heq⟩ := exists_of_map_eq_ok h
    cases heq
    exact .nil
  | .nest _ (.times (n + 1)) body, _, _, _, hlabels, h => by
    rw [result_emit_times _ _ _ _ n.succ_pos] at h
    obtain ⟨⟨ps, b⟩, hbody, heq⟩ := exists_of_map_eq_ok h
    cases heq
    rw [Patch.allMarks_singleton]
    have hlabels' : ∀ s ∈ Outline.allExecuted body, s.isLabel = false := fun s hs =>
      hlabels s (List.mem_append_left _ hs)
    exact laid_replicate (laid_emitAll hlabels') (n + 1) hbody

theorem laid_emitAll :
    ∀ {items : List Outline} {a : Address} {patches : List Patch} {stop : Address},
    (∀ s ∈ Outline.allExecuted items, s.isLabel = false) →
      (emitAll encode items a).result = .ok (patches, stop) →
    Laid encode a (Outline.allExecuted items) (Patch.allMarks patches) stop
  | [], _, _, _, _, h => by cases h; exact .nil
  | item :: items, _, _, _, hlabels, h => by
    rw [result_emitAll_cons] at h
    obtain ⟨front, b, back, hfront, hback, rfl⟩ := Yield.andThen_eq_ok h
    rw [Patch.allMarks_append]
    exact (laid_emit (fun s hs => hlabels s (List.mem_append_left _ hs)) hfront).append
      (laid_emitAll (fun s hs => hlabels s (List.mem_append_right _ hs)) hback)

end

end Assembly

namespace Outline

namespace Levels

def executed : Levels → List Statement
  | last items => allExecuted items
  | closed items _ next => allExecuted items ++ next.executed

theorem mem_executed_of_items {levels : Levels} {s : Statement} (h : s ∈ allExecuted levels.items) :
    s ∈ levels.executed := by
  cases levels with
  | last items => exact h
  | closed items rest next => exact List.mem_append_left _ h

theorem mem_executed_push {item : Outline} {levels : Levels} {s : Statement}
    (h : s ∈ (levels.push item).executed) :
    s ∈ item.executed ∨ s ∈ levels.executed := by
  cases levels with
  | last items => exact List.mem_append.mp h
  | closed items rest next =>
    rcases List.mem_append.mp h with h | h
    · rcases List.mem_append.mp h with h | h
      · exact .inl h
      · exact .inr (List.mem_append_left _ h)
    · exact .inr (List.mem_append_right _ h)

theorem mem_executed_body {line : Source.Line} {head : Head} {body : List Outline} {s : Statement}
    (h : s ∈ (Outline.nest line head body).executed) : s = .opens head ∨ s ∈ allExecuted body := by
  cases head with
  | guard name comparison type value => exact List.mem_cons.mp h
  | times count =>
    obtain ⟨copy, hcopy, hs⟩ := List.mem_flatten.mp h
    rw [List.eq_of_mem_replicate hcopy] at hs
    exact .inr hs

theorem mem_executed_nest {line : Source.Line} {head : Head} {levels : Levels} {s : Statement}
    (h : s ∈ (levels.nest line head).executed) : s = .opens head ∨ s ∈ levels.executed := by
  cases levels with
  | last body =>
    rw [nest, executed, allExecuted, allExecuted, List.append_nil] at h
    exact mem_executed_body h
  | closed body rest next =>
    rcases mem_executed_push h with h | h
    · exact (mem_executed_body h).imp_right (List.mem_append_left _)
    · exact .inr (List.mem_append_right _ h)

end Levels

/-- Every statement that takes effect stands on some line. -/
theorem exists_line_of_executed {lines : List Source.Line} {s : Statement}
    (h : s ∈ (ofLines lines).executed) :
    ∃ line ∈ lines, Statement.read line.text = .ok s := by
  induction lines with
  | nil => cases h
  | cons line rest ih =>
    have hrest : s ∈ (ofLines rest).executed →
        ∃ l ∈ line :: rest, Statement.read l.text = .ok s := by
      intro hs
      obtain ⟨l, hl, hread⟩ := ih hs
      exact ⟨l, List.mem_cons_of_mem line hl, hread⟩
    rw [ofLines_cons] at h
    rcases hrole : Role.ofText line.text with _ | (fault | act) | head | _ <;> rw [hrole] at h
    · exact hrest h
    · rcases Levels.mem_executed_push h with h | h
      · cases h
      · exact hrest h
    · rcases Levels.mem_executed_push h with h | h
      · obtain rfl := List.mem_singleton.mp h
        exact ⟨line, List.mem_cons_self, Role.read_of_leaf hrole⟩
      · exact hrest h
    · rcases Levels.mem_executed_nest h with rfl | h
      · exact ⟨line, List.mem_cons_self, Role.read_of_opens hrole⟩
      · exact hrest h
    · exact hrest h

end Outline

def Source.executed (lines : List String) : List Statement :=
  Outline.allExecuted (levels lines).items

/-- Without labels, the parts of a program are what its statements come to, one by one, and they
leave no gaps and do not overlap: from address zero on, every part stands where the last write or
adjustment before it stops, and those of instructions on the next multiple of four. -/
theorem contiguous_assemble (encode : Encoder) (lines : List String)
    (hlabels : ∀ line ∈ lines, ∀ a, Statement.read (Source.clean line) ≠ .ok (.plain (.label a)))
    {program : List Patch} (h : (assemble encode lines).result = .ok program) :
    List.Forall₂ (Statement.Makes encode) ((Source.executed lines).filter Statement.leavesMark)
        (Patch.allMarks program) ∧
      Contiguous 0 (((Source.executed lines).filter Statement.leavesMark).zip
        (Patch.allMarks program)) := by
  have hnone : ∀ s ∈ Source.executed lines, s.isLabel = false := by
    intro s hs
    obtain ⟨line, hline, hread⟩ :=
      Outline.exists_line_of_executed (Outline.Levels.mem_executed_of_items hs)
    obtain ⟨source, hsource, rfl⟩ := List.mem_map.mp hline
    rcases s with (a | _ | _ | _) | _ | _
    · exact absurd hread (hlabels source hsource a)
    all_goals rfl
  rw [result_assemble] at h
  obtain ⟨⟨patches, stop⟩, hemit, rfl⟩ := exists_of_map_eq_ok h
  have hlaid := Assembly.laid_emitAll hnone hemit
  exact ⟨hlaid.makes, hlaid.contiguous⟩

/-- The body that is never done leaves no gap, and the one that is done twice goes on from where the
instruction under the guard stops. -/
def packedLines : List String :=
  [".u8 1", "!u16 equal 5", "nop", "!repeat 0", ".u8 9", "nop", "!end", "!end", "!repeat 2",
    "!u8 add 1", ".u16 7", "!end", "blr"]

def packedMarks : List Mark :=
  [.write ⟨0, [1]⟩, .guard ⟨.equal, .u16, 1, 5⟩, .write ⟨4, [0x60, 0, 0, 0]⟩,
    .adjust ⟨.add, .u8, 8, 1⟩, .write ⟨9, [0, 7]⟩, .adjust ⟨.add, .u8, 11, 1⟩, .write ⟨12, [0, 7]⟩,
    .write ⟨16, [0x4E, 0x80, 0x00, 0x20]⟩]

theorem contiguous_packedLines :
    (∀ line ∈ packedLines, ∀ a, Statement.read (Source.clean line) ≠ .ok (.plain (.label a))) ∧
      ∃ program, (assemble powerPC packedLines).result = .ok program ∧
        Patch.allMarks program = packedMarks ∧
        Contiguous 0 (((Source.executed packedLines).filter Statement.leavesMark).zip
          packedMarks) := by
  have hlabels : ∀ line ∈ packedLines, ∀ a, Statement.read (Source.clean line) ≠
      .ok (.plain (.label a)) := by
    have hall : packedLines.all (fun line => match Statement.read (Source.clean line) with
        | .ok (.plain (.label _)) => false
        | _ => true) = true := by decide +kernel
    intro line hline a hread
    have := List.all_eq_true.mp hall line hline
    rw [hread] at this
    cases this
  have hmarks : (assemble powerPC packedLines).result.map Patch.allMarks = .ok packedMarks := by
    decide +kernel
  obtain ⟨program, hprogram, heq⟩ := exists_of_map_eq_ok hmarks
  refine ⟨hlabels, program, hprogram, heq, ?_⟩
  rw [← heq]
  exact (contiguous_assemble powerPC packedLines hlabels hprogram).2

end PatchCode
