/-
# The Harris lists are lock-free

A step that can set another call back changes a published node. It links a node
or marks one, which each call does once, or it unlinks marked nodes, of which
there are only as many as were marked (`waste`); so each call has two such steps
to pay for (`due`). Until the next one every call makes its way, as if it ran
alone: it begins anew at most once, and so it allocates at most two nodes.

Key theorem: `harris_lock_free`.
-/
import Ascylib.Concur.LockFree
import Ascylib.HarrisSolo

set_option linter.unusedSectionVars false

namespace Ascylib

open Concur Chain Program

variable {T K V : Type*} [DecidableEq T]

namespace HarrisHeap

/-! ### What the writes cost -/

/-- The published nodes are as before. -/
def Quiet (S : Set (Heap T K V)) (s s' : Heap T K V) : Prop := ∀ x, Pub S x → s'.mem x = s.mem x

/-- How many linked nodes are marked. -/
noncomputable def waste (s : Heap T K V) : ℕ := {x | Lnk s x ∧ s.Marked x}.ncard

variable [LinearOrder K] [BoundedOrder K] {t : T} {S W : Set (Heap T K V)} {s s' : Heap T K V}

section

variable {x : Ptr T} (h : Quiet S s s') (hx : Pub S x)

include h hx

theorem Quiet.next : s'.next x = s.next x := congrArg LlSimple.next (h x hx)

theorem Quiet.key : s'.key x = s.key x := congrArg LlSimple.key (h x hx)

theorem Quiet.succ : s'.succ x = s.succ x := congrArg Ref.ptr (h.next hx)

theorem Quiet.marked : s'.Marked x ↔ s.Marked x := by
  rw [Heap.Marked, h.next hx]
  rfl

end

section cost

variable (w : Wf S s)

include w

theorem waste_eq (h : Quiet S s s') (hc : ∀ u, s.count u ≤ s'.count u) : waste s' = waste s := by
  have hs : (view T K V).Same S s s' := NodeView.same_of_mem h hc
  unfold waste
  congr 1
  ext x
  constructor
  · rintro ⟨hx, hm⟩
    have hx := (hs.lnk w.listed x).mp hx
    exact ⟨hx, (h.marked (w.pub_lnk hx)).mp hm⟩
  · rintro ⟨hx, hm⟩
    exact ⟨(hs.lnk w.listed x).mpr hx, (h.marked (w.pub_lnk hx)).mpr hm⟩

/-- **A write that is not quiet changes the map, or unlinks a marked node.** -/
theorem Act.cost (a : Act t S s s') (hfin : {x | s.Allocated x}.Finite) :
    (Quiet S s s' ∧ waste s' = waste s) ∨ (absMap s' ≠ absMap s ∧ waste s' ≤ waste s + 1) ∨
      (absMap s' = absMap s ∧ waste s' < waste s) := by
  have hfin' : {x | Lnk s x ∧ s.Marked x}.Finite :=
    hfin.subset fun x hx => w.listed.alloc x (w.pub_lnk hx.1)
  cases a with
  | skip => exact Or.inl ⟨fun _ _ => rfl, rfl⟩
  | free x => exact Or.inl ⟨fun _ _ => rfl, waste_eq w (fun _ _ => rfl) fun _ => le_rfl⟩
  | own hn hi he hc => exact Or.inl ⟨own_mem hn he, waste_eq w (own_mem hn he) hc⟩
  | @link p q i hpq hp hpt hn hi hnq h1 h2 =>
    obtain ⟨hnone, habs⟩ := link_absMap w hpq hp hpt hn hnq h1 h2
    refine Or.inr (Or.inl ⟨fun he => ?_, Nat.le_succ_of_le (Set.ncard_le_ncard ?_ hfin')⟩)
    · rw [← he, habs, Function.update_self] at hnone
      cases hnone
    · rintro x ⟨hx, hm⟩
      have hm : s.Marked x := ((link_swing w hpq hp hpt hn hnq).1.dead_iff x).mp hm
      rcases (link_lnk w hpq hp hpt hn hnq x).mp hx with hx | rfl
      · exact ⟨hx, hm⟩
      · exact absurd hm (not_marked_of_next hnq)
  | @mark p q hpq hp hph hpt =>
    obtain ⟨hl, habs⟩ := mark_absMap w hpq hp hph hpt
    refine Or.inr (Or.inl ⟨fun he => ?_, ?_⟩)
    · have hsome : absMap s (s.key p) = some (s.val p) := mapOf_eq_some w.unique hl
      rw [← he, habs, Function.update_self] at hsome
      cases hsome
    · refine (Set.ncard_le_ncard (fun x hx => ?_) (hfin'.insert p)).trans (Set.ncard_insert_le _ _)
      obtain ⟨hx, hm⟩ := hx
      rcases (mark_marked x).mp hm with hm | rfl
      · exact Or.inr ⟨(mark_lnk hpq x).mp hx, hm⟩
      · exact Or.inl rfl
  | @splice p q r hpq hp hr hk hm =>
    by_cases hqr : q = r
    · -- the pointer is as it was
      subst hqr
      have hq : Quiet S s (s.setNext p q.ref) := by
        intro x _
        by_cases hx : x = p
        · subst hx
          simp [Heap.setNext, ← hpq, Heap.next]
        · exact Heap.mem_setNext_of_ne s p x _ hx
      exact Or.inl ⟨hq, waste_eq w hq fun _ => le_rfl⟩
    · have habs := (splice_absMap w hpq hp hr hk hm).2
      refine Or.inr (Or.inr ⟨habs, Set.ncard_lt_ncard ⟨?_, ?_⟩ hfin'⟩)
      · rintro x ⟨hx, hmx⟩
        exact ⟨((splice_lnk w hpq hp hr hk x).mp hx).1, ((splice_swing hpq).dead_iff x).mp hmx⟩
      · intro hsub
        -- the node behind `p` goes
        have hlp : Lnk s p := w.lnk_of_next hp hpq
        have hpt : p ≠ .tail := w.sorted.ne_tail hr hk
        have hlq : Lnk s q := succ_of_next hpq ▸ hlp.next hpt
        have hpq' : s.key p < s.key q := by
          have := w.sorted.step p hlp hpt
          rwa [succ_of_next hpq] at this
        have hqr' : s.key q < s.key r := by
          have := (w.sorted.le_or_next_le hlp hpt hr).resolve_left (not_le.mpr hk)
          rw [succ_of_next hpq] at this
          exact lt_of_le_of_ne this fun h => hqr (w.sorted.inj hlq hr h)
        obtain ⟨hq, -⟩ := hsub ⟨hlq, hm q hlq hpq' hqr'⟩
        rcases ((splice_lnk w hpq hp hr hk q).mp hq).2 with h | h
        · exact absurd hpq' (not_lt.mpr h)
        · exact absurd hqr' (not_lt.mpr h)

end cost

/-! ### Any Harris list -/

namespace Code

variable [Nontrivial K] [Zero V] {L : Type*} {C : Code T K V L}
  {P : Program T (Call K V) (Answer V) (Heap T K V) L Unit}

omit [BoundedOrder K] [Nontrivial K] in
/-- A call that has not taken effect can still change the map, and have a node
unlinked. -/
def due (C : Code T K V L) (s : Heap T K V) (op : Call K V) (l : L) : ℕ :=
  if (C.lin s op l).isSome then 0 else 2

section run

variable [Fintype T] (h : C.Correct P) {es : Trace T (Call K V) (Answer V) (Heap T K V) L}
  {c : Config T (Call K V) (Heap T K V) L} (hr : P.Run es c) {op : Call K V} {l l' : L}
  (ht : c.threads t = some (op, l)) (hres : P.result l = none)
  (hstep : P.step () t c.shared op l = some (s', l')) (hfin : {x | c.shared.Allocated x}.Finite)

include h hr ht hres hstep hfin

/-- A step is quiet, or uses up a credit. -/
theorem Correct.cost :
    (Quiet (P.seen es) c.shared s' ∧
      tally (C.due s') ⟨s', Function.update c.threads t (some (op, l'))⟩ + waste s' ≤
        tally (C.due c.shared) c + waste c.shared) ∨
    tally (C.due s') ⟨s', Function.update c.threads t (some (op, l'))⟩ + waste s' <
      tally (C.due c.shared) c + waste c.shared := by
  have hok := h.step_ok hr ht hres hstep
  have htally := tally_tau (f := C.due s') (g := C.due c.shared) ht s' l' fun u op₁ l₁ hu hc => by
    rw [due, h.stable_lin hr hu ht hres hstep hc]
    rfl
  have hdue : C.due s' op l' ≤ C.due c.shared op l := by
    rcases hok.point with ⟨he, -⟩ | ⟨-, r, he, -⟩
    · rw [due, he]
      rfl
    · simp [due, he]
  rcases hok.act.cost (h.wf hr) hfin with ⟨hq, hw⟩ | ⟨hne, hw⟩ | ⟨-, hw⟩
  · exact Or.inl ⟨hq, by omega⟩
  · -- the call takes effect
    rcases hok.point with ⟨-, he⟩ | ⟨hnone, r, hsome, -⟩
    · exact absurd he hne
    · have h1 : C.due s' op l' = 0 := by simp [due, hsome]
      have h2 : C.due c.shared op l = 2 := by simp [due, hnone]
      exact Or.inr (by omega)
  · exact Or.inr (by omega)

end run

/-- **Lock-freedom, for any Harris list** whose quiet steps lead on, but for
those that allocate. -/
theorem Correct.lockFree [Fintype T] (h : C.Correct P) {W : Type*} [Preorder W] [WellFoundedLT W]
    (allocs : Heap T K V → Call K V → L → ℕ) (rank : Heap T K V → Call K V → L → W)
    (hfin : ∀ {es c}, P.Run es c → {x | c.shared.Allocated x}.Finite)
    (hquiet : ∀ {es c t op l s'}, P.Run es c → c.threads t = some (op, l) →
      Quiet (P.seen es) c.shared s' → allocs s' op l = allocs c.shared op l ∧
        (above s' = above c.shared → rank s' op l = rank c.shared op l))
    (hstep : ∀ {es c t op l s' l'}, P.Run es c → c.threads t = some (op, l) → P.result l = none →
      P.step () t c.shared op l = some (s', l') → allocs s' op l' < allocs c.shared op l ∨
        allocs s' op l' ≤ allocs c.shared op l ∧ above s' = above c.shared ∧
          rank s' op l' < rank c.shared op l) : P.LockFree fun _ _ _ _ => True := by
  refine Program.lockFree_of_credit
    (fun c => toLex (tally (C.due c.shared) c + waste c.shared, tally (allocs c.shared) c)) rank ?_
  intro es c t op l i s' l' hr ht hres hst _
  rcases h.cost hr ht hres hst (hfin hr) with ⟨hq, hle⟩ | hlt
  · have htally := tally_tau (f := allocs s') (g := allocs c.shared) ht s' l' fun u op₁ l₁ _ hc =>
      (hquiet hr hc hq).1
    rcases hstep hr ht hres hst with ha | ⟨ha, habove, hrank⟩
    · exact Or.inl (Prod.Lex.toLex_lt_toLex'.mpr ⟨hle, fun _ => by dsimp only; omega⟩)
    · refine Or.inr ⟨Prod.Lex.toLex_le_toLex'.mpr ⟨hle, fun _ => by dsimp only; omega⟩, hrank, ?_⟩
      exact fun u op₁ l₁ _ hc => ((hquiet hr hc hq).2 habove).le
  · exact Or.inl (lex_left hlt)

end Code

end HarrisHeap

open HarrisHeap

variable [LinearOrder K] [BoundedOrder K] [Zero V]

/-! ### The two lists -/

namespace LinkedListHarrisOpt

/-- Whether the call allocates a node before its next CAS. -/
def before : Pc T V → ℕ
  | .listSearch | .testMark _ _ | .testKey _ _ | .unlinkNext _ _ | .unlinkCas _ _ _ |
    .unlinkFree _ _ | .advance _ _ | .insertEq _ _ | .insertAlloc _ _ => 1
  | _ => 0

/-- How many nodes the call can allocate without another call's write. -/
noncomputable def allocs (s : Heap T K V) (l : Pc T V) : ℕ := rounds (Current s l) (before l)

section step

variable {t : T} {S W : Set (Heap T K V)} {s s' : Heap T K V} {op : Call K V} {l l' : Pc T V}

theorem current_congr (hW : W ⊆ S) (h : At t S W s op l) (hq : Quiet S s s') :
    Current s' l ↔ Current s l := by
  cases l
  case testMark | unlinkNext | unlinkCas => simp only [Current, hq.next h.2.1.1]
  case testKey a b =>
    simp only [Current, hq.next h.2.1.1, hq.marked (h.2.2.1.1.mono hW)]
  case unlinkFree | advance =>
    simp only [Current, hq.next h.2.1.1, hq.succ (h.2.2.1.1.mono hW)]
  case insertEq | insertAlloc => simp only [Current, hq.next h.2.1.1]
  case insertCas a b n =>
    obtain ⟨k, v, -, h2, -⟩ := h
    simp only [Current, hq.next h2.1]
  case removeEq => simp only [Current, hq.marked (h.2.2.1.1.mono hW)]
  case removeNext => simp only [Current, hq.marked h.2.2.1]
  case removeCas => simp only [Current, hq.next h.2.2.1]
  all_goals exact Iff.rfl

theorem rank_congr (hW : W ⊆ S) (h : At t S W s op l) (hq : Quiet S s s')
    (ha : above s' = above s) : rank s' l = rank s l := by
  cases l
  case findLt => simp only [rank, ha, hq.key (h.2.1.mono hW)]
  case findNext => simp only [rank, ha, hq.key (h.2.1.mono hW)]
  case testMark => simp only [rank, ha, hq.key (h.2.2.1.mono hW)]
  case testKey | unlinkNext | unlinkCas => simp only [rank, ha, hq.key (h.2.2.1.1.mono hW)]
  case unlinkFree | advance => simp only [rank, ha, hq.key (h.2.2.1.1.mono hW)]
  all_goals rfl

/-- Only an allocation adds a key. -/
theorem above_step (hl : ∀ a b, l ≠ .insertAlloc a b) : above (step t s op l).1 = above s := by
  have hcas : ∀ {a : Ptr T} {b c : Ref T} {r s'}, s.cas a b c = (r, s') → above s' = above s := by
    intro a b c r s' h
    cases r
    · rw [Heap.cas_false h]
    · rw [(Heap.cas_true h).2, above_setNext]
  cases l
  case insertAlloc a b => exact absurd rfl (hl a b)
  case unlinkCas | insertCas | removeCas | finalCas =>
    simp only [step]
    split <;> exact hcas ‹_›
  all_goals rfl

theorem allocs_step (h : Nearer s l (step t s op l)) (hres : result l = none) :
    allocs (step t s op l).1 (step t s op l).2 ≤ allocs s l := by
  refine rounds_le h.1 ?_
  cases l
  case findLt | findEq | findMark | testMark | insertEq | removeEq =>
    left
    simp only [step]
    split <;> simp [before]
  case testKey a b =>
    left
    simp only [step, listSearchRet]
    split
    · split <;> simp [before]
    · simp [before]
  case insertFree => exact Or.inr ⟨le_rfl, id, trivial⟩
  case removeCas a b c =>
    rcases hcas : s.cas b c (getMarkedRef c) with ⟨⟨⟩, s'⟩
    · simp only [step, hcas]
      exact Or.inr ⟨le_rfl, next_ne_of_cas hcas, trivial⟩
    · simp only [step, hcas]
      exact Or.inl le_rfl
  case unlinkCas | insertCas | finalCas =>
    left
    simp only [step]
    split <;> simp [before]
  case insertAlloc =>
    left
    simp only [step]
    split <;> simp [before]
  case done => cases hres
  case unchanged => cases hres
  all_goals exact Or.inl le_rfl

theorem allocs_alloc {a b : Ptr T}
    (h : Nearer s (.insertAlloc a b) (step t s op (.insertAlloc a b)))
    (hat : At t S W s op (.insertAlloc a b)) :
    allocs (step t s op (.insertAlloc a b)).1 (step t s op (.insertAlloc a b)).2 <
      allocs s (.insertAlloc a b) := by
  obtain ⟨⟨k, v, rfl⟩, -⟩ := hat
  exact rounds_lt h.1 Nat.one_pos

end step

theorem lock_free [Nontrivial K] [Fintype T] :
    { program T K V with pre := Keyed }.LockFree fun _ _ _ _ => True := by
  have hC : (code T K V).Correct { program T K V with pre := Keyed } :=
    correct_of_keyed fun _ h => h
  have hfin : ∀ {es c}, { program T K V with pre := Keyed }.Run es c →
      {x | c.shared.Allocated x}.Finite := fun hr =>
    Memory.run_finite id (fun _ => rfl) (fun {i t s op l s' l'} hs u hu => by
      have he : step t s op l = (s', l') := Option.some.inj hs
      have := count_step hu s op l
      rwa [he] at this) hr
  refine hC.lockFree (fun s _ l => allocs s l) (fun s _ l => anew (Current s l) (rank s l)) hfin
    ?_ ?_
  · intro es c t op l s' hr ht hq
    have hat : At t _ _ c.shared op l := hC.at_loc hr ht
    have hW := hr.window_subset_seen (code T K V).reset t
    have hcur : Current s' l = Current c.shared l := propext (current_congr hW hat hq)
    refine ⟨?_, fun ha => ?_⟩
    · unfold allocs
      rw [hcur]
    · rw [hcur, rank_congr hW hat hq ha]
  · intro es c t op l s' l' hr ht hres hs
    have he : step t c.shared op l = (s', l') := Option.some.inj hs
    have hat : At t _ _ c.shared op l := hC.at_loc hr ht
    have w := hC.wf hr
    have hn := nearer w hat (hr.window_subset_seen _ _) (hfin hr) hres
    by_cases hl : ∃ a b, l = .insertAlloc a b
    · obtain ⟨a, b, rfl⟩ := hl
      have hlt := allocs_alloc hn hat
      rw [he] at hlt
      exact Or.inl hlt
    · right
      have hle := allocs_step hn hres
      have habove : above (step t c.shared op l).1 = above c.shared :=
        above_step fun a b h => hl ⟨a, b, h⟩
      rw [he] at hn hle habove
      exact ⟨hle, habove, anew_lt hn.1 hn.2⟩

end LinkedListHarrisOpt

namespace LinkedListHarris

/-- Whether the call has a node to allocate before its next CAS. -/
def Caller.before : Caller T V → ℕ
  | .insert newnode => if newnode = .null then 1 else 0
  | _ => 0

/-- How many nodes the call can still allocate. -/
def allocs : Pc T V → ℕ
  | .search c _ _ | .scan c _ _ _ _ | .readNext c _ _ _ | .testKey c _ _ _ _ | .testNull c _ _ _ |
    .testMark c _ _ _ | .cas c _ _ _ | .freeNext c _ _ _ _ | .free c _ _ _ _ _ | .searched c _ _ =>
    c.before
  | .insertEq _ _ newnode => (Caller.insert newnode : Caller T V).before
  | .insertAlloc _ _ => 1
  | _ => 0

section step

variable {t : T} {S W : Set (Heap T K V)} {s s' : Heap T K V} {op : Call K V} {l : Pc T V}

theorem current_congr (w : Wf S s) (hW : W ⊆ S) (h : At t S W s op l) (hq : Quiet S s s') :
    Current s' l ↔ Current s l := by
  cases l
  case scan c a b x r =>
    refine and_congr (by rw [hq.next h.2.1]) (forall_congr' fun hm => ?_)
    rw [hq.next ((h.2.2.2.2.2 hm).1.pub w hW).1]
  case readNext => simp only [Current, hq.next (h.2.2.2.1.pub w hW).1]
  case testKey => simp only [Current, hq.next (h.2.2.2.2.1.pub w hW).1, hq.next h.2.1]
  case testNull | testMark | freeNext | free =>
    simp only [Current, hq.next (Left.pub w hW h.2.2.2).1, hq.marked h.2.1]
  case cas => simp only [Current, hq.next (h.2.2.2.1.pub w hW).1, hq.marked h.2.1]
  case searched | removeEq =>
    simp only [Current, hq.next (h.2.pub w hW).1, hq.marked (h.2.pub w hW).2]
  case insertEq => simp only [Current, hq.next (h.2.pub w hW).1]
  case insertAlloc => simp only [Current, hq.next h.2.1.1]
  case insertNext =>
    obtain ⟨k, v, q, -, h2, -⟩ := h
    simp only [Current, hq.next h2.1]
  case insertCas =>
    obtain ⟨k, v, -, h2, -⟩ := h
    simp only [Current, hq.next h2.1]
  case removeNext => simp only [Current, hq.next h.2.1.1, hq.marked h.2.2.1]
  case removeCas => simp only [Current, hq.next h.2.1.1, hq.next h.2.2.1]
  case removeVal => simp only [Current, hq.next h.2.1.1]
  case finalCas => simp only [Current, hq.next h.1.1]
  all_goals exact Iff.rfl

theorem rank_congr {ys : List (Ptr T)} (h : At t S W s op l) (hd : debt s l ys)
    (hp : ∀ x ∈ ys, Pub S x) (hq : Quiet S s s') (ha : above s' = above s) :
    rank s' l = rank s l := by
  cases l
  case scan => simp only [rank, ha, hq.key h.2.2.2.1]
  case readNext | testKey => simp only [rank, ha, hq.key h.2.1]
  case freeNext c a b x y =>
    obtain ⟨hpath, hne⟩ := hd
    have hy : Pub S y := by
      rcases ys with _ | ⟨z, zs⟩
      · exact absurd rfl hne
      · obtain ⟨rfl, -⟩ := hpath
        exact hp y List.mem_cons_self
    simp only [rank, ha, hq.key hy]
  case free c a b x y z =>
    obtain ⟨zs, rfl, hpath⟩ := hd
    have hz : Pub S z := by
      rcases zs with _ | ⟨z', zs⟩
      · obtain rfl : z = x := hpath
        exact h.2.1
      · obtain ⟨rfl, -⟩ := hpath
        exact hp z (List.mem_cons_of_mem _ List.mem_cons_self)
    simp only [rank, ha, hq.key hz]
  all_goals rfl

/-- Only an allocation adds a key. -/
theorem above_step (hl : ∀ a b, l ≠ .insertAlloc a b) : above (step t s op l).1 = above s := by
  have hcas : ∀ {a : Ptr T} {b c : Ref T} {r s'}, s.cas a b c = (r, s') → above s' = above s := by
    intro a b c r s' h
    cases r
    · rw [Heap.cas_false h]
    · rw [(Heap.cas_true h).2, above_setNext]
  cases l
  case insertAlloc a b => exact absurd rfl (hl a b)
  case insertNext => exact above_setNext _ _
  case cas | insertCas | removeCas | finalCas =>
    simp only [step]
    split <;> exact hcas ‹_›
  case searched c a x => cases c <;> rfl
  all_goals rfl

theorem allocs_compare (c : Caller T V) (a b x : Ptr T) : allocs (compare c a b x) = c.before := by
  unfold compare
  split <;> rfl

theorem allocs_step (hat : At t S W s op l) (hres : result l = none) :
    allocs (step t s op l).2 ≤ allocs l := by
  cases l
  case scan =>
    simp only [step]
    split
    · exact (allocs_compare _ _ _ _).le
    · exact le_rfl
  case testKey =>
    simp only [step]
    split
    · exact le_rfl
    · exact (allocs_compare _ _ _ _).le
  case readNext | testNull | testMark | cas | free | findNull | findKey | removeEq | removeNext |
      removeCas | finalCas =>
    simp only [step]
    split <;> simp [allocs, Caller.before]
  case insertEq =>
    simp only [step]
    split
    · split <;> simp [allocs]
    · split <;> simp [allocs, Caller.before, *]
  case insertAlloc =>
    simp only [step]
    split <;> simp [allocs]
  case insertCas a b n =>
    -- the node is kept for the next round
    obtain ⟨k, v, -, -, -, -, -, -, i, rfl, -⟩ := hat
    simp only [step]
    split <;> simp [allocs, Caller.before]
  case searched c a b => cases c <;> simp [step, allocs, Caller.before]
  case done => cases hres
  case unchanged => cases hres
  all_goals exact le_rfl

end step

theorem lock_free [Nontrivial K] [Fintype T] :
    { program T K V with pre := Keyed }.LockFree fun _ _ _ _ => True := by
  have hC : (code T K V).Correct { program T K V with pre := Keyed } :=
    correct_of_keyed fun _ h => h
  have hfin : ∀ {es c}, { program T K V with pre := Keyed }.Run es c →
      {x | c.shared.Allocated x}.Finite := fun hr =>
    Memory.run_finite id (fun _ => rfl) (fun {i t s op l s' l'} hs u hu => by
      have he : step t s op l = (s', l') := Option.some.inj hs
      have := count_step hu s op l
      rwa [he] at this) hr
  refine hC.lockFree (fun _ _ l => allocs l) (fun s _ l => anew (Current s l) (rank s l)) hfin ?_ ?_
  · intro es c t op l s' hr ht hq
    have hat : At t _ _ c.shared op l := hC.at_loc hr ht
    obtain ⟨ys, hd, hp⟩ := (accounts Keyed).owed hC hr ht
    have hcur := current_congr (hC.wf hr) (hr.window_subset_seen (code T K V).reset t) hat hq
    exact ⟨rfl, fun ha => by rw [propext hcur, rank_congr hat hd hp hq ha]⟩
  · intro es c t op l s' l' hr ht hres hs
    have he : step t c.shared op l = (s', l') := Option.some.inj hs
    have hat : At t _ _ c.shared op l := hC.at_loc hr ht
    obtain ⟨ys, hd, hp⟩ := (accounts Keyed).owed hC hr ht
    have hn := nearer (hC.wf hr) (hr.window_subset_seen _ _) (hfin hr) hat hd hp hres
    by_cases hl : ∃ a b, l = .insertAlloc a b
    · obtain ⟨a, b, rfl⟩ := hl
      obtain ⟨⟨k, v, rfl⟩, -⟩ := hat
      obtain ⟨rfl, rfl⟩ := Prod.mk.inj he
      exact Or.inl Nat.one_pos
    · right
      have hle := allocs_step hat hres
      have habove : above (step t c.shared op l).1 = above c.shared :=
        above_step fun a b h => hl ⟨a, b, h⟩
      rw [he] at hn hle habove
      exact ⟨hle, habove, anew_lt hn.1 hn.2⟩

end LinkedListHarris

/-- **The two Harris lists are lock-free**: in every run that goes on for ever,
whichever threads the scheduler stops, calls return again and again. -/
theorem harris_lock_free [Nontrivial K] [Fintype T] :
    { LinkedListHarris.program T K V with pre := Keyed }.LockFree (fun _ _ _ _ => True) ∧
      { LinkedListHarrisOpt.program T K V with pre := Keyed }.LockFree fun _ _ _ _ => True :=
  ⟨LinkedListHarris.lock_free, LinkedListHarrisOpt.lock_free⟩

/-- Three threads, and keys 1 to 8. -/
theorem harris_lock_free_three :
    { LinkedListHarris.program (Fin 3) (Fin 10) ℕ with pre := Keyed }.LockFree
        (fun _ _ _ _ => True) ∧
      { LinkedListHarrisOpt.program (Fin 3) (Fin 10) ℕ with pre := Keyed }.LockFree
        fun _ _ _ _ => True := harris_lock_free

end Ascylib
