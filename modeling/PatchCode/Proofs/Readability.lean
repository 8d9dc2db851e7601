import Mathlib.Tactic
import PatchCode.Patch.Printer
import PatchCode.Proofs.Codec

/-! The text form of a program determines the program. The text comes apart into its lines, a line
into its indentation and its heading, and a heading into its tokens; and the indentation says which
of the lines behind a heading are its body: those up to the next line that stands no deeper. -/

namespace PatchCode

/-- What can be read back is written down in one way only. -/
theorem injective_of_reads {α : Type} {write : α → String} (read : String → Option α)
    (h : ∀ a, read (write a) = some a) : Function.Injective write := by
  intro a b hab
  have hread := congrArg read hab
  rwa [h, h, Option.some.injEq] at hread

namespace Text

theorem hex_injective (width : Nat) : Function.Injective (hex width) :=
  injective_of_reads (fun s => ofDigits? 16 s.toList) (ofDigits?_hex width)

theorem hexByte_injective : Function.Injective hexByte :=
  fun _ _ h => UInt8.toNat_inj.mp (hex_injective 2 h)

/-- A text of lines that are each ended by a line feed comes apart into the lines. -/
theorem splitOn_join {ls : List String} (hls : ∀ l ∈ ls, '\n' ∉ l.toList) :
    (String.join (ls.map (· ++ "\n"))).toList.splitOn '\n' = ls.map String.toList ++ [[]] := by
  induction ls with
  | nil => rfl
  | cons l ls ih =>
    obtain ⟨hl, hls⟩ := List.forall_mem_cons.mp hls
    have htext : (String.join ((l :: ls).map (· ++ "\n"))).toList =
        l.toList ++ '\n' :: (String.join (ls.map (· ++ "\n"))).toList := by
      simp
    rw [htext, List.splitOn_append_cons_self_of_not_mem hl, ih hls]
    rfl

theorem join_lines_inj {ls ks : List String} (hls : ∀ l ∈ ls, '\n' ∉ l.toList)
    (hks : ∀ k ∈ ks, '\n' ∉ k.toList)
    (h : String.join (ls.map (· ++ "\n")) = String.join (ks.map (· ++ "\n"))) : ls = ks := by
  have hsplit := congrArg (fun s : String => s.toList.splitOn '\n') h
  simp only [splitOn_join hls, splitOn_join hks, List.append_cancel_right_eq] at hsplit
  exact List.map_injective_iff.mpr (fun _ _ => String.toList_injective) hsplit

/-- Blanks in front of a text that starts with none can be counted. -/
theorem replicate_append_inj {m n : Nat} {c d : Char} {cs ds : List Char} (hc : c ≠ ' ')
    (hd : d ≠ ' ') (h : List.replicate m ' ' ++ c :: cs = List.replicate n ' ' ++ d :: ds) :
    m = n ∧ c :: cs = d :: ds := by
  induction m generalizing n with
  | zero =>
    cases n with
    | zero => exact ⟨rfl, h⟩
    | succ n => exact absurd (List.cons.inj h).1 hc
  | succ m ih =>
    cases n with
    | zero => exact absurd (List.cons.inj h).1.symm hd
    | succ n =>
      obtain ⟨rfl, hrest⟩ := ih (List.cons.inj h).2
      exact ⟨rfl, hrest⟩

end Text

namespace Source

theorem IsToken.lineFeed_notMem {s : String} (hs : IsToken s) : '\n' ∉ s.toList := fun h =>
  absurd (hs.2 _ h) (by decide)

theorem lineFeed_notMem_intercalate {ws : List String} (hws : ∀ w ∈ ws, IsToken w) :
    '\n' ∉ (" ".intercalate ws).toList := by
  intro h
  obtain hblank | ⟨w, hw, hc⟩ := mem_intercalate h
  · exact absurd hblank (by decide)
  · exact (hws w hw).lineFeed_notMem hc

end Source

section Words

open Source

theorem ValueType.name_injective : Function.Injective name :=
  injective_of_reads ofName? fun t => by cases t <;> rfl

theorem Comparison.name_injective : Function.Injective name :=
  injective_of_reads ofName? fun c => by cases c <;> rfl

theorem Change.name_injective : Function.Injective name :=
  injective_of_reads ofName? fun c => by cases c <;> rfl

theorem Address.render_injective : Function.Injective render := by
  intro a b h
  exact UInt32.toNat_inj.mp (Text.hex_injective 8 ((String.append_right_inj _).mp h))

theorem ValueType.renderValue_injective (t : ValueType) : Function.Injective t.renderValue := by
  intro v w h
  exact UInt32.toNat_inj.mp (Text.hex_injective _ ((String.append_right_inj _).mp h))

theorem Address.isToken_render (a : Address) : IsToken a.render :=
  IsToken.append (by decide) (Text.isToken_hex 8 a.toNat)

theorem ValueType.isToken_renderValue (t : ValueType) (v : UInt32) : IsToken (t.renderValue v) :=
  IsToken.append (by decide) (Text.isToken_hex _ v.toNat)

theorem ValueType.isToken_name (t : ValueType) : IsToken t.name := by
  cases t <;> decide

theorem Comparison.isToken_name (c : Comparison) : IsToken c.name := by
  cases c <;> decide

theorem Change.isToken_name (c : Change) : IsToken c.name := by
  cases c <;> decide

def Condition.words (c : Condition) : List String :=
  ["if", c.type.name, c.comparison.name, c.type.renderValue c.value, "@", c.address.render]

def Adjustment.words (a : Adjustment) : List String :=
  [a.change.name, a.type.name, a.type.renderValue a.value, "@", a.address.render]

theorem Condition.render_eq (c : Condition) : c.render = " ".intercalate c.words := by
  rw [← String.toList_inj]
  simp [render, words, String.intercalate_cons_cons]

theorem Adjustment.render_eq (a : Adjustment) : a.render = " ".intercalate a.words := by
  rw [← String.toList_inj]
  simp [render, words, String.intercalate_cons_cons]

theorem Condition.isToken_words (c : Condition) : ∀ w ∈ c.words, IsToken w := by
  simp only [words, List.forall_mem_cons, List.not_mem_nil, false_implies, implies_true, and_true]
  exact ⟨by decide, c.type.isToken_name, c.comparison.isToken_name,
    c.type.isToken_renderValue c.value, by decide, c.address.isToken_render⟩

theorem Adjustment.isToken_words (a : Adjustment) : ∀ w ∈ a.words, IsToken w := by
  simp only [words, List.forall_mem_cons, List.not_mem_nil, false_implies, implies_true, and_true]
  exact ⟨a.change.isToken_name, a.type.isToken_name, a.type.isToken_renderValue a.value, by decide,
    a.address.isToken_render⟩

theorem Condition.tokens_render (c : Condition) : tokens c.render.toList = c.words := by
  rw [c.render_eq, tokens_intercalate c.isToken_words]

theorem Adjustment.tokens_render (a : Adjustment) : tokens a.render.toList = a.words := by
  rw [a.render_eq, tokens_intercalate a.isToken_words]

theorem Condition.render_injective : Function.Injective render := by
  intro c d h
  have hwords : c.words = d.words := by rw [← c.tokens_render, ← d.tokens_render, h]
  obtain ⟨comparison, type, address, value⟩ := c
  obtain ⟨comparison', type', address', value'⟩ := d
  simp only [words, List.cons.injEq, and_true, true_and] at hwords
  obtain ⟨htype, hcomparison, hvalue, haddress⟩ := hwords
  obtain rfl := ValueType.name_injective htype
  obtain rfl := Comparison.name_injective hcomparison
  obtain rfl := type.renderValue_injective hvalue
  obtain rfl := Address.render_injective haddress
  rfl

theorem Adjustment.render_injective : Function.Injective render := by
  intro a b h
  have hwords : a.words = b.words := by rw [← a.tokens_render, ← b.tokens_render, h]
  obtain ⟨change, type, address, value⟩ := a
  obtain ⟨change', type', address', value'⟩ := b
  simp only [words, List.cons.injEq, and_true, true_and] at hwords
  obtain ⟨hchange, htype, hvalue, haddress⟩ := hwords
  obtain rfl := Change.name_injective hchange
  obtain rfl := ValueType.name_injective htype
  obtain rfl := type.renderValue_injective hvalue
  obtain rfl := Address.render_injective haddress
  rfl

/-- What stands between the brackets of a write comes apart into the bytes. -/
theorem Write.tokens_bytes (bytes : List UInt8) :
    tokens (" ".intercalate (bytes.map Text.hexByte)).toList = bytes.map Text.hexByte :=
  tokens_intercalate (List.forall_mem_map.mpr fun b _ => Text.isToken_hex 2 b.toNat)

theorem Write.toList_render (w : Write) :
    w.render.toList = "write ".toList ++ (w.address.render.toList ++
    (" [".toList ++ ((" ".intercalate (w.bytes.map Text.hexByte)).toList ++ [']']))) := by
  simp [render]

theorem Write.render_injective : Function.Injective render := by
  intro v w h
  have hlength : ∀ a : Address, a.render.toList.length = 10 := by
    intro a
    rw [Address.render, String.toList_append, List.length_append,
      Text.length_hex (by decide) a.toNat_lt]
    rfl
  have htext := congrArg String.toList h
  rw [v.toList_render, w.toList_render, List.append_cancel_left_eq] at htext
  -- All addresses have one width, so the brackets open at the same place.
  obtain ⟨haddress, hrest⟩ := List.append_inj htext (by rw [hlength, hlength])
  rw [List.append_cancel_left_eq, List.append_cancel_right_eq] at hrest
  have hbytes := congrArg tokens hrest
  rw [tokens_bytes, tokens_bytes] at hbytes
  obtain ⟨address, bytes⟩ := v
  obtain rfl : address = w.address := Address.render_injective (String.toList_inj.mp haddress)
  obtain rfl : bytes = w.bytes := List.map_injective_iff.mpr Text.hexByte_injective hbytes
  rfl

end Words

inductive Heading where
  | write (data : Write)
  | block
  | group
  | guard (condition : Condition)
  | adjust (adjustment : Adjustment)
  deriving Repr, DecidableEq

namespace Heading

def render : Heading → String
  | write data => data.render
  | block => "block"
  | group => "multi"
  | guard condition => condition.render
  | adjust adjustment => adjustment.render

def keyword : Heading → String
  | write _ => "write"
  | block => "block"
  | group => "multi"
  | guard _ => "if"
  | adjust adjustment => adjustment.change.name

theorem isToken_keyword (h : Heading) : Source.IsToken h.keyword := by
  cases h with
  | write _ => exact (by decide : Source.IsToken "write")
  | block => decide
  | group => decide
  | guard _ => exact (by decide : Source.IsToken "if")
  | adjust adjustment => exact adjustment.change.isToken_name

theorem head?_tokens_render (h : Heading) :
    (Source.tokens h.render.toList).head? = some h.keyword := by
  cases h with
  | write data =>
    have hword : Source.IsToken "write" := isToken_keyword (write data)
    rw [render, data.toList_render]
    change (Source.tokens ("write".toList ++ ' ' :: _)).head? = _
    rw [Source.tokens_append (by decide), Source.tokens_of_isToken hword]
    rfl
  | block => decide
  | group => decide
  | guard condition => rw [render, condition.tokens_render]; rfl
  | adjust adjustment => rw [render, adjustment.tokens_render]; rfl

/-- The keyword of an adjustment names its change, and no other line starts with that. -/
theorem name_ne_keyword (c : Change) :
    c.name ≠ "write" ∧ c.name ≠ "block" ∧ c.name ≠ "multi" ∧ c.name ≠ "if" := by
  cases c <;> decide

theorem render_injective : Function.Injective render := by
  intro h k heq
  have hkeyword : h.keyword = k.keyword := by
    rw [← Option.some.injEq, ← head?_tokens_render, ← head?_tokens_render, heq]
  cases h <;> cases k
  case write.write => exact congrArg write (Write.render_injective heq)
  case block.block => rfl
  case group.group => rfl
  case guard.guard => exact congrArg guard (Condition.render_injective heq)
  case adjust.adjust => exact congrArg adjust (Adjustment.render_injective heq)
  -- Lines of different kinds have different keywords.
  all_goals grind [keyword, name_ne_keyword]

theorem exists_render_eq (h : Heading) : ∃ rest, h.render.toList = h.keyword.toList ++ rest := by
  cases h with
  | write data => simp [render, keyword, Write.render]
  | block => exact ⟨[], rfl⟩
  | group => exact ⟨[], rfl⟩
  | guard condition => simp [render, keyword, Condition.render]
  | adjust adjustment => simp [render, keyword, Adjustment.render]

/-- A line has no blank behind its indentation. -/
theorem exists_render_eq_cons (h : Heading) : ∃ c rest, h.render.toList = c :: rest ∧ c ≠ ' ' := by
  have hkeyword := h.isToken_keyword
  obtain ⟨rest, hrest⟩ := h.exists_render_eq
  cases hcs : h.keyword.toList with
  | nil => exact absurd (String.toList_eq_nil_iff.mp hcs) hkeyword.1
  | cons c cs =>
    refine ⟨c, cs ++ rest, by rw [hrest, hcs]; rfl, ?_⟩
    rintro rfl
    exact absurd (hkeyword.2 ' ' (by simp [hcs])) (by decide)

theorem lineFeed_notMem (h : Heading) : '\n' ∉ h.render.toList := by
  cases h with
  | write data =>
    rw [render, data.toList_render]
    simp only [List.mem_append, not_or]
    exact ⟨by decide, data.address.isToken_render.lineFeed_notMem, by decide,
      Source.lineFeed_notMem_intercalate (List.forall_mem_map.mpr fun b _ =>
        Text.isToken_hex 2 b.toNat), by decide⟩
  | block => decide
  | group => decide
  | guard condition =>
    rw [render, condition.render_eq]
    exact Source.lineFeed_notMem_intercalate condition.isToken_words
  | adjust adjustment =>
    rw [render, adjustment.render_eq]
    exact Source.lineFeed_notMem_intercalate adjustment.isToken_words

end Heading

namespace Patch

def heading : Patch → Heading
  | write data => .write data
  | block _ => .block
  | group _ => .group
  | guard condition _ => .guard condition
  | adjust adjustment => .adjust adjustment

def body : Patch → List Patch
  | block body | group body | guard _ body => body
  | write _ | adjust _ => []

variable {p q : Patch} {ps qs : List Patch} {depth : Nat} {rest others : List String}

theorem eq_of_heading_of_body (hheading : p.heading = q.heading)
    (hbody : p.body = q.body) : p = q := by
  cases p <;> cases q <;> simp_all [heading, body]

theorem lines_eq (depth : Nat) (p : Patch) :
    lines depth p = (indent depth ++ p.heading.render) :: allLines (depth + 1) p.body := by
  cases p <;> simp [lines, allLines, heading, body, Heading.render]

theorem count_eq (p : Patch) : count p = countAll p.body + 1 := by
  cases p <;> simp [count, countAll, body]

/-- A line tells how deep it stands and what it shows. -/
theorem line_inj {d e : Nat} {h k : Heading} (heq : indent d ++ h.render = indent e ++ k.render) :
    d = e ∧ h = k := by
  obtain ⟨c, cs, hcs, hc⟩ := h.exists_render_eq_cons
  obtain ⟨c', ds, hds, hd⟩ := k.exists_render_eq_cons
  have htext := congrArg String.toList heq
  simp only [indent, String.toList_append, String.toList_ofList, hcs, hds] at htext
  obtain ⟨hdepth, hrender⟩ := Text.replicate_append_inj hc hd htext
  rw [← hcs, ← hds] at hrender
  exact ⟨by omega, Heading.render_injective (String.toList_inj.mp hrender)⟩

/-- If there are any lines, the first of them stands less deep. -/
def Shallower (depth : Nat) (lines : List String) : Prop :=
  ∀ line ∈ lines.head?, ∃ d < depth, ∃ h : Heading, line = indent d ++ h.render

theorem shallower_allLines (ps : List Patch) (hrest : Shallower depth rest) :
    Shallower (depth + 1) (allLines depth ps ++ rest) := by
  intro line hline
  cases ps with
  | nil =>
    obtain ⟨d, hd, h, rfl⟩ := hrest line hline
    exact ⟨d, hd.trans (Nat.lt_succ_self depth), h, rfl⟩
  | cons p ps =>
    rw [allLines, lines_eq] at hline
    exact ⟨depth, Nat.lt_succ_self depth, p.heading, (Option.some.inj hline).symm⟩

theorem not_shallower_cons (p : Patch) : ¬Shallower depth (lines depth p ++ rest) := by
  intro h
  rw [lines_eq] at h
  obtain ⟨d, hd, k, hk⟩ := h _ rfl
  have := (line_inj hk).1
  omega

/-- The lines of patches at one depth end where a line stands less deep, so they can be told from
what follows. -/
theorem allLines_append_inj (hrest : Shallower depth rest) (hothers : Shallower depth others)
    (h : allLines depth ps ++ rest = allLines depth qs ++ others) : ps = qs ∧ rest = others := by
  -- Bodies and the patches behind them are smaller programs, so the induction is on the number of
  -- patches.
  induction hn : countAll ps using Nat.strongRecOn generalizing depth ps qs rest others with
  | _ n ih =>
    cases ps with
    | nil =>
      cases qs with
      | nil => exact ⟨rfl, h⟩
      | cons q qs =>
        rw [allLines, allLines, List.nil_append, List.append_assoc] at h
        exact absurd (h ▸ hrest) (not_shallower_cons q)
    | cons p ps =>
      cases qs with
      | nil =>
        rw [allLines, allLines, List.nil_append, List.append_assoc] at h
        exact absurd (h ▸ hothers) (not_shallower_cons p)
      | cons q qs =>
        rw [countAll, count_eq] at hn
        simp only [allLines, lines_eq, List.cons_append, List.append_assoc, List.cons.injEq] at h
        obtain ⟨hline, hlines⟩ := h
        -- What follows a body starts at the depth of its heading or above, so the body ends there
        -- in both texts.
        obtain ⟨hbody, hbehind⟩ :=
          ih _ (by omega) (shallower_allLines ps hrest) (shallower_allLines qs hothers) hlines rfl
        obtain ⟨rfl, rfl⟩ := ih _ (by omega) hrest hothers hbehind rfl
        obtain rfl := eq_of_heading_of_body (line_inj hline).2 hbody
        exact ⟨rfl, rfl⟩

theorem lineFeed_notMem_line (depth : Nat) (h : Heading) :
    '\n' ∉ (indent depth ++ h.render).toList := by
  have hindent : '\n' ∉ (indent depth).toList := by
    rw [indent, String.toList_ofList]
    exact fun h => absurd (List.eq_of_mem_replicate h) (by decide)
  rw [String.toList_append, List.mem_append, not_or]
  exact ⟨hindent, h.lineFeed_notMem⟩

mutual

theorem lineFeed_notMem_lines (depth : Nat) :
    ∀ p : Patch, ∀ line ∈ lines depth p, '\n' ∉ line.toList
  | write data => List.forall_mem_singleton.mpr (lineFeed_notMem_line depth (.write data))
  | block body =>
    List.forall_mem_cons.mpr ⟨lineFeed_notMem_line depth .block,
      lineFeed_notMem_allLines (depth + 1) body⟩
  | group body =>
    List.forall_mem_cons.mpr ⟨lineFeed_notMem_line depth .group,
      lineFeed_notMem_allLines (depth + 1) body⟩
  | guard condition body =>
    List.forall_mem_cons.mpr ⟨lineFeed_notMem_line depth (.guard condition),
      lineFeed_notMem_allLines (depth + 1) body⟩
  | adjust adjustment =>
    List.forall_mem_singleton.mpr (lineFeed_notMem_line depth (.adjust adjustment))

theorem lineFeed_notMem_allLines (depth : Nat) :
    ∀ ps : List Patch, ∀ line ∈ allLines depth ps, '\n' ∉ line.toList
  | [] => List.forall_mem_nil _
  | p :: ps =>
    List.forall_mem_append.mpr ⟨lineFeed_notMem_lines depth p, lineFeed_notMem_allLines depth ps⟩

end

/-- Programs with the same text are the same. -/
theorem render_eq_iff (a b : List Patch) : render a = render b ↔ a = b := by
  refine ⟨fun h => ?_, fun h => h ▸ rfl⟩
  have hblock : '\n' ∉ "block".toList := by decide
  have hlines :=
    Text.join_lines_inj (List.forall_mem_cons.mpr ⟨hblock, lineFeed_notMem_allLines 1 a⟩)
    (List.forall_mem_cons.mpr ⟨hblock, lineFeed_notMem_allLines 1 b⟩) h
  have hempty : Shallower 1 [] := fun line hline => by cases hline
  refine (allLines_append_inj hempty hempty ?_).1
  simpa using hlines

end Patch

end PatchCode
