import Mathlib.Tactic
import PatchCode.Proofs.Layout

/-! Quoted text. What may stand between quotes is a sequence of characters, other than quotes and
backslashes, and of escapes; the reader of quoted text accepts exactly that and decodes it, and the
scan for comments sees no end of a text where the reader sees none. So every text can be written
down as data, whatever comment follows it. -/

namespace PatchCode

namespace Text

variable {front cs back : List Char}

/-- Blanks around a text that has none at its ends are trimmed, and nothing else. -/
theorem trim_blanks (hfront : ∀ c ∈ front, isBlank c = true) (hback : ∀ c ∈ back, isBlank c = true)
    (hfirst : ∃ c, cs.head? = some c ∧ isBlank c = false)
    (hlast : ∃ c, cs.getLast? = some c ∧ isBlank c = false) :
    trim (front ++ cs ++ back) = cs := by
  have hstart : trimStart (front ++ cs ++ back) = cs ++ back := by
    obtain ⟨c, hc, hblank⟩ := hfirst
    obtain ⟨cs, rfl⟩ := List.head?_eq_some_iff.mp hc
    rw [List.append_assoc, trimStart, List.dropWhile_append_of_pos hfront, List.cons_append,
      List.dropWhile_cons_of_neg (by simp [hblank])]
  obtain ⟨c, hc, hblank⟩ := hlast
  obtain ⟨cs, rfl⟩ := List.getLast?_eq_some_iff.mp hc
  rw [trim, hstart, trimEnd, List.reverse_append, List.reverse_append,
    List.dropWhile_append_of_pos fun c hc => hback c (List.mem_reverse.mp hc),
    List.reverse_singleton,
    List.singleton_append, List.dropWhile_cons_of_neg (by simp [hblank]), List.reverse_cons,
    List.reverse_reverse]

theorem exists_trim (cs : List Char) : ∃ front back, cs = front ++ trim cs ++ back ∧
    (∀ c ∈ front, isBlank c = true) ∧ ∀ c ∈ back, isBlank c = true := by
  refine ⟨cs.takeWhile isBlank, (trimStart cs).rtakeWhile isBlank, ?_, ?_, ?_⟩
  · have hend : trim cs ++ (trimStart cs).rtakeWhile isBlank = trimStart cs :=
      List.rdropWhile_append_rtakeWhile
    rw [List.append_assoc, hend]
    exact List.takeWhile_append_dropWhile.symm
  · exact fun c hc => List.mem_takeWhile_imp hc
  · exact fun c hc => List.mem_rtakeWhile_imp hc

end Text

namespace Literal

/-- The escapes: the letter behind the backslash and the character that they stand for. -/
def escapes : List (Char × Char) :=
  [('n', '\n'), ('t', '\t'), ('r', '\r'), ('0', '\x00'), ('\\', '\\'), ('"', '"')]

inductive Spells : List Char → List Char → Prop
  | nil : Spells [] []
  | plain {c : Char} {written text : List Char} (hquote : c ≠ '"') (hbackslash : c ≠ '\\')
      (rest : Spells written text) : Spells (c :: written) (c :: text)
  | escape {letter c : Char} {written text : List Char} (h : (letter, c) ∈ escapes)
      (rest : Spells written text) :
      Spells ('\\' :: letter :: written) (c :: text)

theorem unescape?_eq_some_iff {letter c : Char} :
    unescape? letter = some c ↔ (letter, c) ∈ escapes := by
  constructor
  · intro h
    unfold unescape? at h
    split at h <;> cases h <;> simp [escapes]
  · intro h
    simp only [escapes, List.mem_cons, List.not_mem_nil, or_false, Prod.mk.injEq] at h
    rcases h with ⟨rfl, rfl⟩ | ⟨rfl, rfl⟩ | ⟨rfl, rfl⟩ | ⟨rfl, rfl⟩ | ⟨rfl, rfl⟩ | ⟨rfl, rfl⟩ <;>
      rfl

theorem quotedBody?_of_spells {written text : List Char} (h : Spells written text) :
    quotedBody? (written ++ ['"']) = some text := by
  induction h with
  | nil => rfl
  | plain hquote hbackslash _ ih => simp [quotedBody?, hbackslash, ih]
  | escape h _ ih => simp [quotedBody?, unescape?_eq_some_iff.mpr h, ih]

theorem spells_of_quotedBody? {cs text : List Char} (h : quotedBody? cs = some text) :
    ∃ written, cs = written ++ ['"'] ∧ Spells written text := by
  fun_induction quotedBody? cs generalizing text with
  | case1 | case3 | case5 => cases h
  | case2 cs hempty =>
    obtain rfl := Option.some.inj h
    exact ⟨[], by rw [List.isEmpty_iff.mp hempty]; rfl, .nil⟩
  | case4 letter cs c rest hrest hletter ih =>
    obtain rfl := Option.some.inj h
    obtain ⟨written, rfl, hspells⟩ := ih hrest
    exact ⟨'\\' :: letter :: written, rfl, .escape (unescape?_eq_some_iff.mp hletter) hspells⟩
  | case6 c cs hquote hescape ih =>
    obtain ⟨rest, hrest, rfl⟩ := Option.map_eq_some_iff.mp h
    obtain ⟨written, rfl, hspells⟩ := ih hrest
    -- A backslash here would have a character behind it, if only the closing quote.
    have hbackslash : c ≠ '\\' := by
      rintro rfl
      cases written with
      | nil => exact hescape _ _ rfl rfl
      | cons d written => exact hescape _ _ rfl rfl
    exact ⟨c :: written, rfl, .plain hquote hbackslash hspells⟩

theorem quoted?_eq_some_iff {cs text : List Char} :
    quoted? cs = some text ↔ ∃ written, cs = '"' :: written ++ ['"'] ∧ Spells written text := by
  constructor
  · intro h
    unfold quoted? at h
    split at h
    next cs =>
      obtain ⟨written, rfl, hspells⟩ := spells_of_quotedBody? h
      exact ⟨written, rfl, hspells⟩
    next => cases h
  · rintro ⟨written, rfl, hspells⟩
    exact quotedBody?_of_spells hspells

/-- The reader of quoted text accepts what is spelled between quotes, with blanks around them. -/
theorem quoted_eq_ok_iff {t s : String} : quoted t = .ok s ↔
    ∃ written, Text.trim t.toList = '"' :: written ++ ['"'] ∧ Spells written s.toList := by
  rw [← quoted?_eq_some_iff, quoted]
  cases quoted? (Text.trim t.toList) with
  | none => simp
  | some cs => simp [← String.toList_inj]

def quoteChar (c : Char) : List Char :=
  match escapes.find? (·.2 = c) with
  | some (letter, _) => ['\\', letter]
  | none => [c]

def quote (s : String) : String := .ofList ('"' :: s.toList.flatMap quoteChar ++ ['"'])

theorem toList_quote (s : String) : (quote s).toList = '"' :: s.toList.flatMap quoteChar ++ ['"'] :=
  String.toList_ofList

theorem getLast?_quote (s : String) : (quote s).toList.getLast? = some '"' := by
  rw [toList_quote]
  exact List.getLast?_concat

theorem spells_quoteChar (c : Char) {written text : List Char} (h : Spells written text) :
    Spells (quoteChar c ++ written) (c :: text) := by
  unfold quoteChar
  split
  next letter d hfind =>
    obtain rfl : d = c := by simpa using List.find?_some hfind
    exact .escape (List.mem_of_find?_eq_some hfind) h
  next hfind =>
    have hnone : ∀ e ∈ escapes, e.2 ≠ c := by simpa using hfind
    exact .plain (hnone ('"', '"') (by decide)).symm (hnone ('\\', '\\') (by decide)).symm h

theorem spells_flatMap_quoteChar (text : List Char) : Spells (text.flatMap quoteChar) text := by
  induction text with
  | nil => exact .nil
  | cons c text ih =>
    rw [List.flatMap_cons]
    exact spells_quoteChar c ih

end Literal

namespace Source

/-- The scan for comments goes through the text from one state to the other. -/
structure Passes (q : Quoting) (cs : List Char) (q' : Quoting) : Prop where
  uncommented : Uncommented q cs
  state : cs.foldl Quoting.next q = q'

namespace Passes

variable {q q' q'' : Quoting} {xs ys : List Char}

theorem append (h : Passes q xs q') (h' : Passes q' ys q'') : Passes q (xs ++ ys) q'' := by
  obtain ⟨huncommented, rfl⟩ := h
  exact ⟨uncommented_append.mpr ⟨huncommented, h'.uncommented⟩, by rw [List.foldl_append, h'.state]⟩

theorem cons {c : Char} (hc : ¬(q = .outside ∧ c = ';')) (hnext : q.next c = q')
    (h : Passes q' xs q'') :
    Passes q (c :: xs) q'' := by
  subst hnext
  exact ⟨uncommented_cons.mpr ⟨hc, h.uncommented⟩, h.state⟩

theorem nil : Passes q [] q := ⟨uncommented_nil, rfl⟩

/-- Blanks neither open a quotation nor begin a comment. -/
theorem blanks (h : ∀ c ∈ xs, Text.isBlank c = true) : Passes .outside xs .outside := by
  induction xs with
  | nil => exact nil
  | cons c xs ih =>
    have hc := h c List.mem_cons_self
    have hquote : c ≠ '"' := by
      rintro rfl
      exact absurd hc (by decide)
    refine cons ?_ (Quoting.next_outside hquote) (ih fun d hd => h d (List.mem_cons_of_mem c hd))
    rintro ⟨-, rfl⟩
    exact absurd hc (by decide)

theorem spelled {text : List Char} (h : Literal.Spells xs text) : Passes .inside xs .inside := by
  induction h with
  | nil => exact nil
  | @plain c _ _ hquote hbackslash _ ih =>
    have hnext : Quoting.inside.next c = .inside := by
      unfold Quoting.next
      split <;> simp_all
    exact cons (by simp) hnext ih
  | @escape letter _ written _ _ _ ih =>
    have hletter : Passes .escaped (letter :: written) .inside := cons (by simp) rfl ih
    exact cons (by simp) rfl hletter

theorem quotation {text : List Char} (h : Literal.Spells xs text) :
    Passes .outside ('"' :: xs ++ ['"']) .outside := by
  have hopen : Passes .outside ('"' :: xs) .inside := cons (by simp) rfl (spelled h)
  have hclose : Passes .inside ['"'] .outside := cons (by simp) rfl nil
  exact hopen.append hclose

end Passes

theorem stripComment_of_quoted {t s : String} (h : Literal.quoted t = .ok s) :
    stripComment t.toList = t.toList := by
  obtain ⟨written, htrim, hspells⟩ := Literal.quoted_eq_ok_iff.mp h
  obtain ⟨front, back, ht, hfront, hback⟩ := Text.exists_trim t.toList
  rw [htrim] at ht
  rw [ht]
  exact uncommented_iff.mp (((Passes.blanks hfront).append (.quotation hspells)).append
    (.blanks hback)).uncommented

/-- A data line with a text and a comment is cleaned of the comment and of the blank in front of
it. -/
theorem clean_text (s comment : String) :
    clean (".str " ++ Literal.quote s ++ " ;" ++ comment) =
      ".str ".toList ++ (Literal.quote s).toList := by
  have hline : ".str " ++ Literal.quote s ++ " ;" ++ comment =
      (".str " ++ Literal.quote s ++ " ") ++ ";" ++ comment := by
    simp [← String.toList_inj]
  have htext : (".str " ++ Literal.quote s ++ " ").toList =
      ".str ".toList ++ (Literal.quote s).toList ++ [' '] := by
    rw [String.toList_append, String.toList_append]
    rfl
  have hpasses : Passes .outside (".str " ++ Literal.quote s ++ " ").toList .outside := by
    have hname : Passes .outside ".str ".toList .outside := ⟨by decide, rfl⟩
    have hquote : Passes .outside (Literal.quote s).toList .outside := by
      rw [Literal.toList_quote]
      exact .quotation (Literal.spells_flatMap_quoteChar s.toList)
    rw [htext]
    exact (hname.append hquote).append (.blanks (List.forall_mem_singleton.mpr (by decide)))
  have htrim : Text.trim ([] ++ (".str ".toList ++ (Literal.quote s).toList) ++ [' ']) =
      ".str ".toList ++ (Literal.quote s).toList := by
    refine Text.trim_blanks (by simp) (List.forall_mem_singleton.mpr (by decide))
      ⟨'.', rfl, by decide⟩ ⟨'"', ?_, by decide⟩
    rw [List.getLast?_append, Literal.getLast?_quote]
    rfl
  rw [hline, clean_commented hpasses.state hpasses.uncommented, clean, stripComment,
    uncommented_iff.mp hpasses.uncommented, htext]
  exact htrim

end Source

theorem Literal.quoted_quote (s : String) : quoted (.ofList (' ' :: (quote s).toList)) = .ok s := by
  have htrim : Text.trim ([' '] ++ (quote s).toList ++ []) = (quote s).toList :=
    Text.trim_blanks (List.forall_mem_singleton.mpr (by decide)) (by simp)
      ⟨'"', by rw [toList_quote]; rfl, by decide⟩ ⟨'"', getLast?_quote s, by decide⟩
  rw [List.append_nil, List.singleton_append] at htrim
  refine quoted_eq_ok_iff.mpr ⟨_, ?_, spells_flatMap_quoteChar s.toList⟩
  rw [String.toList_ofList, htrim, toList_quote]

theorem Statement.read_text (s : String) :
    read (".str ".toList ++ (Literal.quote s).toList) =
      .ok (.plain (.data "str" (Bytes.ofText s))) := by
  change readData ("str ".toList ++ (Literal.quote s).toList) = _
  have hname : ("str ".toList ++ (Literal.quote s).toList).takeWhile (!Text.isBlank ·) =
      "str".toList := rfl
  have hargs : ("str ".toList ++ (Literal.quote s).toList).dropWhile (!Text.isBlank ·) =
      ' ' :: (Literal.quote s).toList := rfl
  rw [readData, hname, hargs]
  change (DataKind.text.encode _).map _ = _
  rw [DataKind.encode, Literal.quoted_quote]
  rfl

theorem Bytes.ofText_eq (s : String) : ofText s = s.toUTF8.data.toList := by
  rw [ofText, String.toUTF8, ← String.utf8Encode_toList]
  simp [List.utf8Encode]

theorem Bytes.ofText_eq_nil_iff {s : String} : ofText s = [] ↔ s = "" := by
  constructor
  · intro h
    rw [ofText, List.flatMap_eq_nil_iff] at h
    have hnone : s.toList = [] :=
      List.eq_nil_iff_forall_not_mem.mpr fun c hc => String.utf8EncodeChar_ne_nil (h c hc)
    exact String.toList_eq_nil_iff.mp hnone
  · rintro rfl
    rfl

/-- What a single line comes to. -/
theorem result_assemble_singleton (encode : Encoder) {line : String} {act : Plain}
    (h : Statement.read (Source.clean line) = .ok (.plain act)) :
    (assemble encode [line]).result = (Assembly.emitPlain encode 0 act).result.map Prod.fst := by
  have hitems : (Source.levels [line]).items = [.leaf ⟨0, Source.clean line⟩ (.ok act)] := by
    rw [Source.levels_cons, Source.role_of_read h]
    rfl
  rw [result_assemble, hitems, Assembly.result_emitAll_singleton, Assembly.result_emit_plain]

/-- Every text can be written as data, with any comment behind it. What is read as a quoted text is
what spells one, and the scan for comments leaves it whole. -/
theorem assemble_quote :
    (∀ (encode : Encoder) (s comment : String),
        (assemble encode [".str " ++ Literal.quote s ++ " ;" ++ comment]).result =
          .ok (if s = "" then [] else [.write ⟨0, s.toUTF8.data.toList⟩])) ∧
      (∀ t s : String, Literal.quoted t = .ok s ↔
        ∃ written, Text.trim t.toList = '"' :: written ++ ['"'] ∧ Literal.Spells written s.toList) ∧
      ∀ t s : String, Literal.quoted t = .ok s → Source.stripComment t.toList = t.toList := by
  refine ⟨fun encode s comment => ?_, fun _ _ => Literal.quoted_eq_ok_iff, fun _ _ =>
    Source.stripComment_of_quoted⟩
  have hread : Statement.read (Source.clean (".str " ++ Literal.quote s ++ " ;" ++ comment)) =
      .ok (.plain (.data "str" (Bytes.ofText s))) := by
    rw [Source.clean_text, Statement.read_text]
  rw [result_assemble_singleton encode hread, Assembly.emitPlain, ← Bytes.ofText_eq]
  by_cases hs : s = ""
  · rw [if_pos (List.isEmpty_iff.mpr (Bytes.ofText_eq_nil_iff.mpr hs)), if_pos hs]
    rfl
  · have hbytes : ¬(Bytes.ofText s).isEmpty = true := by
      rwa [List.isEmpty_iff, Bytes.ofText_eq_nil_iff]
    rw [if_neg hbytes, if_neg hs]
    rfl

/-- A text of a quote, a semicolon, a backslash and a letter of two bytes, with a comment behind
it. -/
theorem assemble_quote_semicolon :
    Literal.quoted " \"\\\";\\\\é\" " = .ok "\";\\é" ∧
      Source.stripComment " \"\\\";\\\\é\" ".toList = " \"\\\";\\\\é\" ".toList ∧
      (assemble powerPC [".str " ++ Literal.quote "\";\\é" ++ " ;" ++ "\""]).result =
        .ok [.write ⟨0, "\";\\é".toUTF8.data.toList⟩] := by
  have hquoted : Literal.quoted " \"\\\";\\\\é\" " = .ok "\";\\é" := by decide
  exact ⟨hquoted, assemble_quote.2.2 _ _ hquoted, assemble_quote.1 _ _ _⟩

end PatchCode
