import Mathlib.Logic.Relation
import PatchCode.Dialect
import PatchCode.Proofs.Idempotence

/-! Programs that differ only in how their data is cut into writes and how their patches are
grouped. The usual passes bring all of them to one form, and that form is such a program itself: so
they tell apart exactly the programs that differ in more than that. -/

namespace PatchCode

/-- One write is cut in two, or a run of patches is wrapped into a repeat group, somewhere in a
program. A run of no patches makes an empty group. -/
inductive Recut : List Patch → List Patch → Prop
  | split (w : Write) {n : Nat} (hpos : 0 < n) (hlt : n < w.size) (ps : List Patch) :
    Recut (.write w :: ps) (.write (w.split n).1 :: .write (w.split n).2 :: ps)
  | wrap (run ps : List Patch) : Recut (run ++ ps) (.group run :: ps)
  | inBlock {body body' : List Patch} (h : Recut body body') (ps : List Patch) :
    Recut (.block body :: ps) (.block body' :: ps)
  | inGroup {body body' : List Patch} (h : Recut body body') (ps : List Patch) :
    Recut (.group body :: ps) (.group body' :: ps)
  | inGuard (c : Condition) {body body' : List Patch} (h : Recut body body') (ps : List Patch) :
    Recut (.guard c body :: ps) (.guard c body' :: ps)
  | behind (p : Patch) {ps ps' : List Patch} (h : Recut ps ps') : Recut (p :: ps) (p :: ps')

abbrev UpToCuts : List Patch → List Patch → Prop := Relation.EqvGen Recut

namespace Patch

theorem mergeAll_append_congr {qs qs' : List Patch} (h : mergeAll qs = mergeAll qs')
    (ps : List Patch) :
    mergeAll (ps ++ qs) = mergeAll (ps ++ qs') := by
  induction ps with
  | nil => exact h
  | cons p ps ih => rw [List.cons_append, List.cons_append, mergeAll, mergeAll, ih]

/-- A cut is joined again, and a group is spliced, before anything else is looked at. -/
theorem mergeAll_recut {ps qs : List Patch} (h : Recut ps qs) :
    mergeAll (flattenAll qs) = mergeAll (flattenAll ps) := by
  induction h with
  | split w hpos hlt ps => exact mergeAll_split w hlt.le (flattenAll ps)
  | wrap run ps => rw [flattenAll, flatten, flattenAll_append]
  | inBlock _ ps ih | inGuard _ _ ps ih =>
    simp only [flattenAll, flatten, List.singleton_append, mergeAll, merge, ih]
  | inGroup _ ps ih =>
    rw [flattenAll, flattenAll, flatten, flatten, ← mergeAll_mergeAll_append, ih,
      mergeAll_mergeAll_append]
  | behind p _ ih => exact mergeAll_append_congr ih (flatten p)

theorem optimize_eq_of_upToCuts {ps qs : List Patch} (h : UpToCuts ps qs) :
    optimize qs = optimize ps := by
  induction h with
  | rel ps qs h => rw [optimize_def, optimize_def, mergeAll_recut h]
  | refl ps => rfl
  | symm ps qs _ ih => exact ih.symm
  | trans ps qs rs _ _ ih ih' => exact ih'.trans ih

end Patch

namespace UpToCuts

variable {ps qs : List Patch}

theorem lift {f : List Patch → List Patch} (hf : ∀ {ps qs}, Recut ps qs → Recut (f ps) (f qs))
    (h : UpToCuts ps qs) :
    UpToCuts (f ps) (f qs) := by
  induction h with
  | rel ps qs h => exact .rel _ _ (hf h)
  | refl ps => exact .refl _
  | symm ps qs _ ih => exact .symm _ _ ih
  | trans ps qs rs _ _ ih ih' => exact .trans _ _ _ ih ih'

theorem behind (p : Patch) (h : UpToCuts ps qs) : UpToCuts (p :: ps) (p :: qs) := lift (.behind p) h

theorem inBlock (h : UpToCuts ps qs) (rs : List Patch) :
    UpToCuts (.block ps :: rs) (.block qs :: rs) :=
  lift (fun h => .inBlock h rs) h

theorem inGroup (h : UpToCuts ps qs) (rs : List Patch) :
    UpToCuts (.group ps :: rs) (.group qs :: rs) :=
  lift (fun h => .inGroup h rs) h

theorem inGuard (c : Condition) (h : UpToCuts ps qs) (rs : List Patch) :
    UpToCuts (.guard c ps :: rs) (.guard c qs :: rs) := lift (fun h => .inGuard c h rs) h

theorem unwrap (run ps : List Patch) : UpToCuts (.group run :: ps) (run ++ ps) :=
  .symm _ _ (.rel _ _ (.wrap run ps))

/-- What stands in front may be recut as if it were in a group. -/
theorem append_right (h : UpToCuts ps qs) (rs : List Patch) : UpToCuts (ps ++ rs) (qs ++ rs) :=
  calc UpToCuts (ps ++ rs) (.group ps :: rs) := .symm _ _ (unwrap ps rs)
    UpToCuts _ (.group qs :: rs) := inGroup h rs
    UpToCuts _ (qs ++ rs) := unwrap qs rs

theorem cut (w : Write) {n : Nat} (hpos : 0 < n) (hlt : n < w.size) (ps : List Patch) :
    UpToCuts (.write w :: ps) (.write (w.split n).1 :: .write (w.split n).2 :: ps) :=
  .rel _ _ (.split w hpos hlt ps)

end UpToCuts

namespace Patch

mutual

theorem upToCuts_flatten : ∀ (p : Patch) (ps : List Patch), UpToCuts (p :: ps) (flatten p ++ ps)
  | write _, _ | adjust _, _ => .refl _
  | block body, ps => (upToCuts_flattenAll body).inBlock ps
  | guard c body, ps => (upToCuts_flattenAll body).inGuard c ps
  | group body, ps =>
    .trans _ _ _ (UpToCuts.unwrap body ps) ((upToCuts_flattenAll body).append_right ps)

theorem upToCuts_flattenAll : ∀ ps : List Patch, UpToCuts ps (flattenAll ps)
  | [] => .refl _
  | p :: ps => .trans _ _ _ ((upToCuts_flattenAll ps).behind p) (upToCuts_flatten p (flattenAll ps))

end

theorem upToCuts_pieces {w : Write} {ws : List Write} (h : w.Pieces ws) (ps : List Patch) :
    UpToCuts (write w :: ps) (ws.map write ++ ps) := by
  induction h with
  | whole w => exact .refl _
  | cut hpos hlt _ ih => exact .trans _ _ _ (UpToCuts.cut _ hpos hlt ps) (ih.behind _)

mutual

theorem upToCuts_realign : ∀ (p : Patch) (ps : List Patch), UpToCuts (p :: ps) (realign p ++ ps)
  | write w, ps => upToCuts_pieces w.pieces_realign ps
  | adjust _, _ => .refl _
  | block body, ps => (upToCuts_realignAll body).inBlock ps
  | group body, ps => (upToCuts_realignAll body).inGroup ps
  | guard c body, ps => (upToCuts_realignAll body).inGuard c ps

theorem upToCuts_realignAll : ∀ ps : List Patch, UpToCuts ps (realignAll ps)
  | [] => .refl _
  | p :: ps => .trans _ _ _ ((upToCuts_realignAll ps).behind p) (upToCuts_realign p (realignAll ps))

end

def Filled (ws : List Write) : Prop := ∀ w ∈ ws, w.bytes ≠ []

theorem filled_append {vs ws : List Write} : Filled (vs ++ ws) ↔ Filled vs ∧ Filled ws :=
  List.forall_mem_append

theorem filled_joinFront {p : Patch} {ps : List Patch} (hp : Filled (writes p))
    (hps : Filled (allWrites ps)) :
    Filled (allWrites (joinFront p ps)) := by
  have hcons : Filled (allWrites (p :: ps)) := filled_append.mpr ⟨hp, hps⟩
  unfold joinFront
  split
  next w v ps =>
    split_ifs with h
    · refine filled_append.mpr ⟨?_, (filled_append.mp hps).2⟩
      intro u hu
      obtain rfl := List.mem_singleton.mp hu
      exact List.append_ne_nil_of_left_ne_nil (hp w (List.mem_singleton_self w)) _
    · exact hcons
  next => exact hcons

mutual

theorem filled_merge : ∀ {p : Patch}, Filled (writes p) → Filled (writes (merge p))
  | write _, h | adjust _, h => h
  | block _, h | group _, h | guard _ _, h => filled_mergeAll h

theorem filled_mergeAll :
    ∀ {ps : List Patch}, Filled (allWrites ps) → Filled (allWrites (mergeAll ps))
  | [], h => h
  | p :: ps, h => by
    obtain ⟨hp, hps⟩ := filled_append.mp h
    exact filled_joinFront (filled_merge hp) (filled_mergeAll hps)

end

theorem filled_pieces {w : Write} {ws : List Write} (h : w.Pieces ws)
    (hw : w.bytes ≠ []) : Filled ws := by
  induction h with
  | whole w => exact List.forall_mem_singleton.mpr hw
  | @cut w n ws hpos hlt _ ih =>
    have hfront : 0 < (w.split n).1.size := by rwa [Write.size_split_fst w hlt.le]
    have hback : 0 < (w.split n).2.size := by rw [Write.size_split_snd]; omega
    exact List.forall_mem_cons.mpr ⟨List.ne_nil_of_length_pos hfront,
      ih (List.ne_nil_of_length_pos hback)⟩

theorem filled_realignAll {ps : List Patch} (h : Filled (allWrites ps)) :
    Filled (allWrites (realignAll ps)) := by
  intro v hv
  rw [allWrites_realignAll] at hv
  obtain ⟨w, hw, hv⟩ := List.mem_flatMap.mp hv
  exact filled_pieces w.pieces_realign (h w hw) v hv

/-- Joining takes a cut back, where neither part is empty. -/
theorem upToCuts_joinFront {p : Patch} {ps : List Patch} (hp : Filled (writes p))
    (hps : Filled (allWrites ps)) :
    UpToCuts (p :: ps) (joinFront p ps) := by
  unfold joinFront
  split
  next w v ps =>
    split_ifs with h
    · have hw : 0 < w.size := List.length_pos_of_ne_nil (hp w (List.mem_singleton_self w))
      have hv : 0 < v.size := List.length_pos_of_ne_nil (hps v List.mem_cons_self)
      have hcut := UpToCuts.cut (w.join v) hw (by rw [Write.size_join]; omega) ps
      rw [Write.split_join h] at hcut
      exact .symm _ _ hcut
    · exact .refl _
  next => exact .refl _

mutual

theorem upToCuts_merge :
    ∀ {p : Patch}, Filled (writes p) → ∀ ps : List Patch, UpToCuts (p :: ps) (merge p :: ps)
  | write _, _, _ | adjust _, _, _ => .refl _
  | block _, h, ps => (upToCuts_mergeAll h).inBlock ps
  | group _, h, ps => (upToCuts_mergeAll h).inGroup ps
  | guard c _, h, ps => (upToCuts_mergeAll h).inGuard c ps

theorem upToCuts_mergeAll : ∀ {ps : List Patch}, Filled (allWrites ps) → UpToCuts ps (mergeAll ps)
  | [], _ => .refl _
  | p :: ps, h => by
    obtain ⟨hp, hps⟩ := filled_append.mp h
    have hparts : UpToCuts (p :: ps) (merge p :: mergeAll ps) :=
      .trans _ _ _ (upToCuts_merge hp ps) ((upToCuts_mergeAll hps).behind (merge p))
    exact .trans _ _ _ hparts (upToCuts_joinFront (filled_merge hp) (filled_mergeAll hps))

end

mutual

theorem allWrites_flatten : ∀ p : Patch, allWrites (flatten p) = writes p
  | write _ | adjust _ => rfl
  | group body => allWrites_flattenAll body
  | block body | guard _ body => by
    rw [flatten, allWrites_singleton, writes, allWrites_flattenAll body, writes]

theorem allWrites_flattenAll : ∀ ps : List Patch, allWrites (flattenAll ps) = allWrites ps
  | [] => rfl
  | p :: ps => by
    rw [flattenAll, allWrites_append, allWrites_flatten p, allWrites_flattenAll ps, allWrites]

end

theorem filled_flattenAll {ps : List Patch} (h : Filled (allWrites ps)) :
    Filled (allWrites (flattenAll ps)) := by
  rwa [allWrites_flattenAll]

/-- The usual passes do no more than to cut, to join and to splice groups. -/
theorem upToCuts_optimize {program : List Patch} (h : Filled (allWrites program)) :
    UpToCuts program (optimize program) := by
  calc UpToCuts program (flattenAll program) := upToCuts_flattenAll program
    UpToCuts _ (mergeAll (flattenAll program)) := upToCuts_mergeAll (filled_flattenAll h)
    UpToCuts _ (optimize program) := upToCuts_realignAll _

/-- However the data of a program is cut and its patches are grouped, the usual passes come to the
same program, and every writer to the same listing. Where no write is empty, nothing else is made
equal. -/
theorem optimize_recut :
    (∀ program recut : List Patch, Relation.ReflTransGen Recut program recut →
      optimize recut = optimize program ∧
        ∀ writer : Writer, writer.write (optimize recut) = writer.write (optimize program)) ∧
    ∀ program other : List Patch, Filled (allWrites program) → Filled (allWrites other) →
      (optimize other = optimize program ↔ UpToCuts program other) := by
  refine ⟨?_, ?_⟩
  · intro program recut h
    have heq := optimize_eq_of_upToCuts (Relation.EqvGen.reflTransGen_le_eqvGen _ _ _ h)
    exact ⟨heq, fun writer => by rw [heq]⟩
  · intro program other hprogram hother
    refine ⟨fun heq => ?_, optimize_eq_of_upToCuts⟩
    have hback := Relation.EqvGen.symm _ _ (upToCuts_optimize hother)
    rw [heq] at hback
    exact .trans _ _ _ (upToCuts_optimize hprogram) hback

def wholeWrites : List Patch :=
  [write ⟨0xFFFFFFFE, [1, 2, 3, 4]⟩, guard ⟨.equal, .u8, 0x10, 1⟩ [write ⟨0x21, [5, 6]⟩]]

def cutWrites : List Patch :=
  [group [write ⟨0xFFFFFFFE, [1]⟩, group []], write ⟨0xFFFFFFFF, [2, 3, 4]⟩,
    guard ⟨.equal, .u8, 0x10, 1⟩ [group [write ⟨0x21, [5]⟩], write ⟨0x22, [6]⟩]]

theorem optimize_cutWrites :
    Relation.ReflTransGen Recut wholeWrites cutWrites ∧ Filled (allWrites wholeWrites) ∧
    Filled (allWrites cutWrites) ∧
      optimize cutWrites = optimize wholeWrites ∧ UpToCuts wholeWrites cutWrites := by
  have hcut : Relation.ReflTransGen Recut wholeWrites (write ⟨0xFFFFFFFE, [1]⟩ ::
      write ⟨0xFFFFFFFF, [2, 3, 4]⟩ :: wholeWrites.tail) := .single
        (.split ⟨0xFFFFFFFE, [1, 2, 3, 4]⟩ (n := 1) (by decide) (by decide) _)
  have hgroup := (hcut.tail (.behind _ (.wrap [] _))).tail (.wrap [_, _] _)
  have hguard : Recut [write ⟨0x21, [5, 6]⟩] [write ⟨0x21, [5]⟩, write ⟨0x22, [6]⟩] :=
    .split ⟨0x21, [5, 6]⟩ (n := 1) (by decide) (by decide) []
  have hcuts : Relation.ReflTransGen Recut wholeWrites cutWrites :=
    (hgroup.tail (.behind _ (.behind _ (.inGuard _ hguard _)))).tail
      (.behind _ (.behind _ (.inGuard _ (.wrap [_] _) _)))
  have hwhole : Filled (allWrites wholeWrites) := by simp [Filled, wholeWrites, allWrites, writes]
  have hpieces : Filled (allWrites cutWrites) := by simp [Filled, cutWrites, allWrites, writes]
  obtain ⟨hsame, hexact⟩ := optimize_recut
  have heq := (hsame _ _ hcuts).1
  exact ⟨hcuts, hwhole, hpieces, heq, (hexact _ _ hwhole hpieces).mp heq⟩

end Patch

end PatchCode
