/-
# What Fraser's skip list has freed

`remove` of `skiplist_fraser.h` marks its node at every level and frees it, and
only then calls `fraser_search`, which unlinks it. So the node is linked when
it is freed (`linked_when_freed`), unless the search of another call has come
past it since it was marked. Beside that, an insert links its node above level
0 by a CAS on the pointer of a predecessor, which does not look at
`new_node->next[i]` again: the node may have been marked, unlinked and freed
since.

In the runs without either, what a remove frees is linked nowhere, and never is
again. The reason is what a whole search does: it leaves no node of its key
linked that was marked when it began.

Key definitions: `Swept`, `Orderly`.
Key theorems: `swept_retired`, `fraser_reclaims`, `linked_when_freed`.
-/
import Ascylib.SkiplistFraser

set_option linter.unusedSectionVars false

namespace Ascylib

open Concur Chain

namespace SkiplistFraser

open FraserHeap
open SkipHeap (LnkAt PubAt Leveled Doomed Retired MarkedTo NotBefore)

variable {T K V : Type*} [DecidableEq T] [LinearOrder K] [Zero V]

/-- A search has just begun, or begun again. -/
def Begins (levelmax : ℕ) (l : Pc T V) : Prop := ∃ c lists, l = begin levelmax c lists

/-- Some search for the key of the node came to its end, and when it last began
the node was marked at level 0. -/
def Swept (levelmax : ℕ) (x : Ptr T) :
    Trace T (Call K V) (Answer V) (FraserHeap T K V) (Pc T V) → Prop
  | [] => False
  | (e, c) :: es => Swept levelmax x es ∨ ∃ t op a lists,
      c.threads t = some (op, .fraserRet a lists) ∧ c.shared.heap.key x = op.key ∧
      ∀ s ∈ window (fun _ => Begins levelmax) t ((e, c) :: es), s.heap.Marked x 0

/-- A remove has passed the node to `ssmem_free`. -/
def Freed (x : Ptr T) : Trace T (Call K V) (Answer V) (FraserHeap T K V) (Pc T V) → Prop
  | (e, _) :: (e', c) :: es => Freed x ((e', c) :: es) ∨
      ∃ t op r, e = .tau t ∧ c.threads t = some (op, .removeFree x r)
  | _ => False

/-- The runs in which no marked node is linked, and each node is swept before
it is freed. -/
def Orderly (levelmax : ℕ) (es : Trace T (Call K V) (Answer V) (FraserHeap T K V) (Pc T V))
    (c : Config T (Call K V) (FraserHeap T K V) (Pc T V)) (e : Event T (Call K V) (Answer V))
    (_ : Config T (Call K V) (FraserHeap T K V) (Pc T V)) : Prop :=
  ∀ t op l, e = .tau t → c.threads t = some (op, l) →
    Late False c.shared l ∧ ∀ x r, l = .removeFree x r → Swept levelmax x es

variable [BoundedOrder K] {t u : T} {S W : Set (FraserHeap T K V)} {s s' : FraserHeap T K V}
  {op : Call K V} {levelmax i : ℕ}

/-! ### What a search leaves behind -/

/-- A node of the key that was marked all through the search. -/
def Target (W : Set (FraserHeap T K V)) (s : FraserHeap T K V) (op : Call K V) (y : Ptr T) : Prop :=
  s.heap.key y = op.key ∧ ∀ s₀ ∈ W, s₀.heap.Marked y 0

/-- The targets of the search are not linked from level `i` up. -/
def Cleared (levelmax : ℕ) (S W : Set (FraserHeap T K V)) (s : FraserHeap T K V) (op : Call K V)
    (i : ℕ) : Prop :=
  ∀ y, Target W s op y → Retired levelmax (heaps S) s.heap i y

/-- None of them stands in front of `r` at level `i`. -/
def Past (W : Set (FraserHeap T K V)) (s : FraserHeap T K V) (op : Call K V) (i : ℕ) (r : Ptr T) :
    Prop :=
  ∀ y, Target W s op y → NotBefore i s.heap y r

/-- And `r` is none of them. -/
def Other (W : Set (FraserHeap T K V)) (s : FraserHeap T K V) (op : Call K V) (r : Ptr T) : Prop :=
  ∀ y, Target W s op y → r ≠ y

/-- The assertion at each local state of a search, besides `At`, where `W` are
the memories since it last began. -/
def Sweeps (levelmax : ℕ) (S W : Set (FraserHeap T K V)) (s : FraserHeap T K V) (op : Call K V) :
    Pc T V → Prop
  | .fraser _ _ i _ => Cleared levelmax S W s op (i + 1)
  | .fraserNext _ _ leftNext _ i _ => Cleared levelmax S W s op (i + 1) ∧ Past W s op i leftNext
  | .fraserKey _ _ leftNext right rightNext i _ => Cleared levelmax S W s op (i + 1) ∧
      Past W s op i leftNext ∧ Other W s op right ∧
      (s.heap.key right < op.key → Past W s op i rightNext)
  | .fraserCas _ _ _ right i _ => Cleared levelmax S W s op (i + 1) ∧ Other W s op right
  | .fraserRet _ _ => Cleared levelmax S W s op 0
  | _ => True

section stable

variable (a : Act False t S s s') (w : Wf S s) (hs : s ∈ W)

include w

theorem doomed_of_marked {y : Ptr T} (h : s.heap.Marked y 0) : Doomed (heaps S) s.heap y := by
  obtain ⟨hp, -, hup⟩ := w.marks h
  refine ⟨hp, fun j hj => ?_⟩
  rcases j.eq_zero_or_pos with rfl | h0
  · exact h
  · exact hup j h0 hj

/-- A node that is marked at level 0 is marked where it is linked. -/
theorem marked_of_pub {y : Ptr T} (h : s.heap.Marked y 0) (hp : Pub i S y) : s.heap.Marked y i := by
  have hyh : y ≠ .head := fun he => w.leveled.head_mark 0 (he ▸ h)
  have hyt : y ≠ .tail := fun he => w.leveled.tail_mark 0 (he ▸ h)
  exact (doomed_of_marked w h).2 i (w.leveled.top hp hyh hyt)

include hs

theorem Target.doomed {y : Ptr T} (h : Target W s op y) : Doomed (heaps S) s.heap y :=
  doomed_of_marked w (h.2 s hs)

include a

theorem Target.back {y : Ptr T} (h : Target (insert s' W) s' op y) : Target W s op y := by
  have hm : ∀ s₀ ∈ W, s₀.heap.Marked y 0 := fun s₀ h₀ => h.2 s₀ (Set.mem_insert_of_mem _ h₀)
  refine ⟨?_, hm⟩
  rw [← (a.stays w).key y (doomed_of_marked w (hm s hs)).1]
  exact h.1

theorem Cleared.step (h : Cleared levelmax S W s op i) :
    Cleared levelmax (insert s' S) (insert s' W) s' op i := by
  intro y hy
  rw [heaps_insert]
  exact a.write.retired w.leveled (h y (hy.back a w hs))

theorem Past.step {r : Ptr T} (h : Past W s op i r) (hr : Pub i S r) :
    Past (insert s' W) s' op i r := by
  intro y hy
  have hd := (hy.back a w hs).doomed w hs
  exact (h y (hy.back a w hs)).step w.leveled (a.stays w) (a.write.gone w.leveled hd) hd.1
    (w.leveled.pub_zero hr)

theorem Other.step {r : Ptr T} (h : Other W s op r) : Other (insert s' W) s' op r :=
  fun y hy => h y (hy.back a w hs)

end stable

/-- A step of another thread keeps the assertion. -/
theorem Sweeps.step {W₀ : Set (FraserHeap T K V)} {l : Pc T V} (a : Act False t S s s') (w : Wf S s)
    (hs : s ∈ W) (hat : At levelmax u S W₀ s op l) (h : Sweeps levelmax S W s op l) :
    Sweeps levelmax (insert s' S) (insert s' W) s' op l := by
  cases l with
  | fraser c left i lists => exact Cleared.step a w hs h
  | fraserNext c left leftNext right i lists => exact ⟨h.1.step a w hs, h.2.step a w hs hat.2.2.1⟩
  | fraserKey c left leftNext right rightNext i lists =>
    obtain ⟨h1, h2, h3, h4⟩ := h
    obtain ⟨-, -, hp, hr, -, -, hn, -⟩ := hat
    refine ⟨h1.step a w hs, h2.step a w hs hp, h3.step a w hs, fun hlt => ?_⟩
    rw [(a.stays w).key right (w.leveled.pub_zero hr)] at hlt
    exact (h4 hlt).step a w hs (hn (w.leveled.ne_tail_of_lt hlt))
  | fraserCas c left leftNext right i lists => exact ⟨h.1.step a w hs, h.2.step a w hs⟩
  | fraserRet c lists => exact Cleared.step a w hs h
  | _ => trivial

/-- A search that begins has come to nothing yet. -/
theorem sweeps_begin {l : Pc T V} (w : Wf S s) (hs : s ∈ W) (hl : Begins levelmax l) :
    Sweeps levelmax S W s op l := by
  obtain ⟨c, lists, rfl⟩ := hl
  intro y hy
  refine ⟨hy.doomed w hs, fun j hij hj => ?_⟩
  omega

/-- The search is done with level `i`, where its targets are not linked. -/
theorem sweeps_fraserLevel {c : Caller T V} {left right : Ptr T} {lists : Lists T}
    (h1 : Cleared levelmax S W s op (i + 1)) (h2 : ∀ y, Target W s op y → ¬ LnkAt i s.heap y) :
    Sweeps levelmax S W s op (fraserLevel c left right i lists) := by
  have hc : Cleared levelmax S W s op i := by
    intro y hy
    refine ⟨(h1 y hy).1, fun j hij hj => ?_⟩
    rcases hij.eq_or_lt with rfl | hij
    · exact h2 y hy
    · exact (h1 y hy).2 j hij hj
  cases i with
  | zero => exact hc
  | succ i => exact hc

/-- Not inside a search. -/
def Quiet : Pc T V → Prop
  | .fraser _ _ _ _ | .fraserNext _ _ _ _ _ _ | .fraserKey _ _ _ _ _ _ _ | .fraserCas _ _ _ _ _ _
  | .fraserRet _ _ => False
  | _ => True

theorem Quiet.sweeps {l : Pc T V} (h : Quiet l) : Sweeps levelmax S W s op l := by
  cases l <;> trivial

/-- A call gets into a search at its beginning. -/
theorem step_quiet {level : ℕ} {l : Pc T V} (h : Quiet l) :
    Begins levelmax (step levelmax level t s op l).2 ∨ Quiet (step levelmax level t s op l).2 := by
  have hmark : ∀ (m : Marker T) (n : Ptr T) i, Begins levelmax (markLevel levelmax m n i : Pc T V) ∨
      Quiet (markLevel levelmax m n i : Pc T V) := by
    intro m n i
    cases i with
    | zero =>
      cases m with
      | insert newNode => exact Or.inl ⟨_, _, rfl⟩
      | remove => exact Or.inr trivial
    | succ i => exact Or.inr trivial
  cases l
  case fraser | fraserNext | fraserKey | fraserCas | fraserRet => exact h.elim
  case markTop m n =>
    simp only [step]
    split
    · exact hmark m n 0
    · exact Or.inr trivial
  case markNext m n i =>
    simp only [step]
    split
    · exact hmark m n i
    · exact Or.inr trivial
  case markCas m n y i =>
    simp only [step]
    split
    · exact hmark m n i
    · exact Or.inr trivial
  case insertAlloc =>
    cases op with
    | insert k v => exact Or.inl ⟨_, _, rfl⟩
    | search | remove => exact Or.inr trivial
  case insertCas | linkCas =>
    simp only [step]
    split
    · exact Or.inr trivial
    · exact Or.inl ⟨_, _, rfl⟩
  case linkInside | removeFree => exact Or.inl ⟨_, _, rfl⟩
  all_goals
    simp only [step]
    repeat' split
    all_goals exact Or.inr trivial

section step

variable {W₀ : Set (FraserHeap T K V)} (w : Wf S s) (hs : s ∈ W) {level : ℕ} {l : Pc T V}
  (hat : At levelmax t S W₀ s op l) (h : Sweeps levelmax S W s op l)

/-- A step that only reads. -/
theorem sweeps_read {l' : Pc T V} (w : Wf S s) (hs : s ∈ W) (h : Sweeps levelmax S W s op l') :
    Sweeps levelmax (insert s S) (insert s W) s op l' := by
  rw [Set.insert_eq_of_mem w.mem, Set.insert_eq_of_mem hs]
  exact h

include w hs hat h

theorem sweeps_fraser (hb : ¬ Begins levelmax (step levelmax level t s op l).2)
    (hl : (∃ c a i x, l = .fraser c a i x) ∨ (∃ c a b y i x, l = .fraserNext c a b y i x) ∨
      (∃ c a b y z i x, l = .fraserKey c a b y z i x) ∨ (∃ c a b y i x, l = .fraserCas c a b y i x) ∨
      ∃ c x, l = .fraserRet c x) :
    Sweeps levelmax (insert (step levelmax level t s op l).1 S)
      (insert (step levelmax level t s op l).1 W) (step levelmax level t s op l).1 op
      (step levelmax level t s op l).2 := by
  rcases hl with ⟨c, a, i, x, rfl⟩ | ⟨c, a, b, y, i, x, rfl⟩ | ⟨c, a, b, y, z, i, x, rfl⟩ |
    ⟨c, a, b, y, i, x, rfl⟩ | ⟨c, x, rfl⟩
  · obtain ⟨-, ⟨hp, hlt⟩, -⟩ := hat
    by_cases hm : s.heap.Marked a i
    · simp only [step, isMarked, show (s.heap.next a i).mark = true from hm, if_true] at hb
      exact absurd ⟨_, _, rfl⟩ hb
    · simp only [step, isMarked, show (s.heap.next a i).mark = false by simpa [SkipHeap.Marked] using hm]
      refine sweeps_read w hs ⟨h, fun y hy => ?_⟩
      exact SkipHeap.notBefore_next w.leveled hp (SkipHeap.next_eq_ref hm) (hlt.trans_eq hy.1.symm)
  · obtain ⟨-, -, -, hp, -⟩ := hat
    obtain ⟨h1, h2⟩ := h
    by_cases hm : s.heap.Marked y i
    · simp only [step, isMarked, show (s.heap.next y i).mark = true from hm, if_true]
      exact sweeps_read w hs ⟨h1, h2⟩
    · simp only [step, isMarked, show (s.heap.next y i).mark = false by simpa [SkipHeap.Marked] using hm]
      refine sweeps_read w hs ⟨h1, h2, ?_, fun hlt y' hy => ?_⟩
      · rintro y' hy rfl
        exact hm (marked_of_pub w (hy.2 s hs) hp)
      · exact SkipHeap.notBefore_next w.leveled hp (SkipHeap.next_eq_ref hm) (hlt.trans_eq hy.1.symm)
  · obtain ⟨h1, h2, h3, h4⟩ := h
    by_cases hle : op.key ≤ s.heap.key y
    · by_cases hby : b = y
      · simp only [step, hle, if_true, hby, ne_eq, not_true_eq_false, if_false]
        refine sweeps_read w hs (sweeps_fraserLevel h1 fun y' hy => ?_)
        exact (hby ▸ h2 y' hy).gone (h3 y' hy) (hy.1.trans_le hle)
      · simp only [step, hle, if_true, ne_eq, hby, not_false_eq_true]
        exact sweeps_read w hs ⟨h1, h3⟩
    · simp only [step, hle, if_false]
      exact sweeps_read w hs ⟨h1, h4 (not_le.mp hle)⟩
  · obtain ⟨-, ⟨hp, hlt⟩, -, hr, hto, hle, -⟩ := hat
    obtain ⟨h1, h2⟩ := h
    rcases hc : s.cas a i b.ref y.ref with ⟨⟨⟩, s'⟩
    · simp only [step, hc] at hb
      exact absurd ⟨_, _, rfl⟩ hb
    · simp only [step, hc]
      obtain ⟨hn, rfl⟩ := cas_true hc
      obtain ⟨hact, -, -⟩ := splice_act False (t := t) w hp hn hto (hlt.trans_le hle)
      have hlr := (hto.lnk w.leveled
        (SkipHeap.linked_next w.leveled hp (w.leveled.ne_tail_of_lt hlt) hn)).1
      refine sweeps_fraserLevel (h1.step hact w hs) fun y' hy => ?_
      have hy' := hy.back hact w hs
      exact SkipHeap.gone_of_splice w.leveled hp hn hlr (hlt.trans_eq hy'.1.symm)
        (hy'.1.trans_le hle) (h2 y' hy')
  · cases c <;> exact sweeps_read w hs trivial

/-- **Every step of a search leads to the next assertion.** -/
theorem sweeps_ok (hb : ¬ Begins levelmax (step levelmax level t s op l).2) :
    Sweeps levelmax (insert (step levelmax level t s op l).1 S)
      (insert (step levelmax level t s op l).1 W) (step levelmax level t s op l).1 op
      (step levelmax level t s op l).2 := by
  by_cases hq : Quiet l
  · exact ((step_quiet hq).resolve_left hb).sweeps
  · cases l
    case fraser | fraserNext | fraserKey | fraserCas | fraserRet =>
      exact sweeps_fraser w hs hat h hb (by simp)
    all_goals exact absurd trivial hq

end step

/-! ### The runs -/

section runs

variable [Nontrivial K] (hpos : 0 < levelmax)
  {es : Trace T (Call K V) (Answer V) (FraserHeap T K V) (Pc T V)}
  {c c' : Config T (Call K V) (FraserHeap T K V) (Pc T V)} {e : Event T (Call K V) (Answer V)}

/-- The skip list, for clients that keep to the keys. -/
abbrev keyed (T K V : Type*) [DecidableEq T] [LinearOrder K] [BoundedOrder K] [Zero V]
    (levelmax : ℕ) :
    Program T (Call K V) (Answer V) (FraserHeap T K V) (Pc T V) (Fin levelmax) :=
  { program T K V levelmax with pre := Keyed }

include hpos

/-- A step of an orderly run, in the memory that the run has come to. -/
theorem orderly_act {l l' : Pc T V} (hr : (keyed T K V levelmax).RunIf (Orderly levelmax) es c)
    (i : Fin levelmax) (ht : c.threads t = some (op, l)) (hres : result l = none)
    (hstep : step levelmax (i + 1) t c.shared op l = (s', l')) (hlate : Late False c.shared l) :
    Act False t ((keyed T K V levelmax).seen es) c.shared s' ∧
      At levelmax t ((keyed T K V levelmax).seen es) (since t es) c.shared op l := by
  have hO := (outline hpos fun _ h => h).holds (hr.mono fun _ _ _ _ _ => trivial)
  obtain ⟨hW, hh, hc, hat⟩ := hO.loc t op l ht
  have hok := step_ok hpos hO.glob (hr.shared_mem_window _ ht) hW hh hc.1 hc.2
    ⟨Nat.succ_pos i, i.2⟩ hat hlate hres
  rw [hstep] at hok
  exact ⟨hok.act, hat⟩

def sweepOutline : Outline (keyed T K V levelmax) (Orderly levelmax)
    (fun _ => Begins levelmax) where
  glob es s := Wf ((keyed T K V levelmax).seen es) s
  loc _ W₀ W s op l := Sweeps levelmax W₀ W s op l
  pair _ _ := True
  pair_symm := id
  init := .initial levelmax
  frame := by
    intro es s e th hg _
    rw [Program.seen, Set.insert_eq_of_mem hg.mem]
    exact hg
  call := by
    intro es s op t hg _ _
    cases op with
    | insert k v => trivial
    | search k | remove k => exact sweeps_begin hg rfl ⟨_, _, rfl⟩
  call_pair := trivial
  tau := by
    intro es c t op l i s' l' hr ht hres hstep hok hw hl
    have hst : step levelmax (i + 1) t c.shared op l = (s', l') := Option.some.inj hstep
    obtain ⟨hact, hat⟩ := orderly_act hpos hr i ht hres hst (hok t op l rfl ht).1
    refine ⟨hact.wf hw, ?_, fun u op₁ l₁ hu hc hl₁ _ => ⟨?_, trivial⟩⟩
    · by_cases hb : Begins levelmax l'
      · exact sweeps_begin (hact.wf hw) (Or.inl rfl) hb
      · have hb' : ¬ Begins levelmax (step levelmax (i + 1) t c.shared op l).2 := by rwa [hst]
        have hnext := sweeps_ok hw (hr.shared_mem_window _ ht) hat hl hb'
        rw [hst] at hnext
        have hwin : extend (fun _ => Begins levelmax) op l' s'
            (window (fun _ => Begins levelmax) t es) = _ := extend_of_not hb s' _
        rw [hwin]
        exact hnext
    · have hO := (outline hpos fun _ h => h).holds (hr.mono fun _ _ _ _ _ => trivial)
      exact hl₁.step hact hw (hr.shared_mem_window _ hc) (hO.loc u op₁ l₁ hc).2.2.2

/-- What is linked nowhere stays so. -/
theorem retired_step (hr : (keyed T K V levelmax).RunIf (Orderly levelmax) es c)
    (hst : (keyed T K V levelmax).Step c e c') (hok : Orderly levelmax es c e c') {x : Ptr T}
    (h : Retired levelmax (heaps ((keyed T K V levelmax).seen es)) c.shared.heap 0 x) :
    Retired levelmax (heaps ((keyed T K V levelmax).seen ((e, c') :: es))) c'.shared.heap 0 x := by
  cases hst with
  | call | ret =>
    rw [Program.seen, Set.insert_eq_of_mem hr.shared_mem_seen]
    exact h
  | @tau t op l s' l' i ht hres hstep =>
    have hw : Wf _ c.shared := ((sweepOutline hpos).holds hr).glob
    obtain ⟨hact, -⟩ := orderly_act hpos hr i ht hres (Option.some.inj hstep) (hok t op l rfl ht).1
    rw [Program.seen, heaps_insert]
    exact hact.write.retired hw.leveled h

/-- **A node that has been swept is linked nowhere.** -/
theorem swept_retired (hr : (keyed T K V levelmax).RunIf (Orderly levelmax) es c) {x : Ptr T}
    (hx : Swept levelmax x es) :
    Retired levelmax (heaps ((keyed T K V levelmax).seen es)) c.shared.heap 0 x := by
  induction hr with
  | init => exact hx.elim
  | @step es c e c' hr hst hok ih =>
    rcases hx with hx | ⟨t, op, a, lists, ht, hkey, hmark⟩
    · exact retired_step hpos hr hst hok (ih hx)
    · exact ((sweepOutline hpos).holds (hr.step hst hok)).loc t op _ ht x ⟨hkey, hmark⟩

theorem freed_retired (hr : (keyed T K V levelmax).RunIf (Orderly levelmax) es c) {x : Ptr T}
    (hx : Freed x es) :
    Retired levelmax (heaps ((keyed T K V levelmax).seen es)) c.shared.heap 0 x := by
  induction hr with
  | init => exact hx.elim
  | @step es c e c' hr hst hok ih =>
    refine retired_step hpos hr hst hok ?_
    cases hr with
    | init => exact hx.elim
    | step hr₀ hst₀ hok₀ =>
      rcases hx with hx | ⟨t, op, r, rfl, ht⟩
      · exact ih hx
      · exact swept_retired hpos (hr₀.step hst₀ hok₀) ((hok t op _ rfl ht).2 x r rfl)

/-- In the runs that meet `ok`, what a remove has freed is linked at no level, at
the free and ever after. -/
def ReclaimsIf (P : Program T (Call K V) (Answer V) (FraserHeap T K V) (Pc T V) (Fin levelmax))
    (ok : Trace T (Call K V) (Answer V) (FraserHeap T K V) (Pc T V) →
      Config T (Call K V) (FraserHeap T K V) (Pc T V) → Event T (Call K V) (Answer V) →
      Config T (Call K V) (FraserHeap T K V) (Pc T V) → Prop) : Prop :=
  ∀ es c, P.RunIf ok es c → ∀ x, Freed x es → ∀ i < levelmax, ¬ LnkAt i c.shared.heap x

/-- **What a remove has freed is not linked at any level, and never is again**,
in the runs in which no marked node is linked, and in which a search for its
key has swept each node since it was marked and before it is freed. -/
theorem fraser_reclaims : ReclaimsIf (keyed T K V levelmax) (Orderly levelmax) :=
  fun _ _ hr _ hx i hi => (freed_retired hpos hr hx).2 i i.zero_le hi

omit hpos in
/-- Three threads, keys 1 to 8, and nodes of up to four levels. -/
theorem fraser_reclaims_three : ReclaimsIf (keyed (Fin 3) (Fin 10) ℕ 4) (Orderly 4) :=
  fraser_reclaims (by decide)

end runs

/-! ### A node that is freed while it is linked -/

/-- The last step of the run was the `ssmem_free` of the node. -/
def frees (x : Ptr T) : Trace T (Call K V) (Answer V) (FraserHeap T K V) (Pc T V) → Bool
  | (.tau t, _) :: (_, c) :: _ =>
    match c.threads t with
    | some (_, .removeFree node _) => decide (node = x)
    | _ => false
  | _ => false

omit [BoundedOrder K] in
theorem freed_of_frees {es : Trace T (Call K V) (Answer V) (FraserHeap T K V) (Pc T V)} {x : Ptr T}
    (h : frees x es = true) : Freed x es := by
  unfold frees at h
  split at h
  · split at h
    · obtain rfl := of_decide_eq_true h
      exact Or.inr ⟨_, _, _, rfl, ‹_›⟩
    · cases h
  · cases h

/-- One thread inserts 5, and removes it up to the `fraser_search` after its
`ssmem_free`. -/
def freeFirst : List (Move (Fin 1) (Call (Fin 10) ℕ) (Fin 2)) :=
  [.call 0 (.insert 5 7)] ++ List.replicate 13 (.tau 0 0) ++ [.ret 0, .call 0 (.remove 5)] ++
    List.replicate 15 (.tau 0 0)

theorem freeFirst_state :
    (Program.play (keyed (Fin 1) (Fin 10) ℕ 2)
      ([], Program.initial (keyed (Fin 1) (Fin 10) ℕ 2)) freeFirst).any
      (fun q => frees (.node 0 0) q.1 &&
        decide ((q.2.shared.heap.next .head 0).ptr = .node 0 0)) = true := by
  decide +kernel

/-- **A node is linked when it is freed.** After `freeFirst` the pointer of the
head at level 0 leads to the node that was freed. -/
theorem linked_when_freed :
    ¬ ReclaimsIf (keyed (Fin 1) (Fin 10) ℕ 2) (fun _ _ _ _ => True) := by
  intro hclaim
  obtain ⟨⟨es, c⟩, hplay, hq⟩ := (Option.any_eq_true _ _).mp freeFirst_state
  obtain ⟨hfree, hnext⟩ := Bool.and_eq_true_iff.mp hq
  have hpre : ∀ t op, .call t op ∈ freeFirst → Keyed op := by
    intro t op h
    simp only [freeFirst, List.mem_append, List.mem_cons, List.mem_replicate, List.not_mem_nil,
      or_false, reduceCtorEq, and_false, false_or, Move.call.injEq] at h
    rcases h with ⟨-, rfl⟩ | ⟨-, rfl⟩ <;> exact ⟨by decide, by decide⟩
  have hlnk : LnkAt 0 c.shared.heap (c.shared.heap.next .head 0).ptr :=
    Chain.linked_head.next fun h => by cases h
  rw [of_decide_eq_true hnext] at hlnk
  exact hclaim es c (Program.play_run _ .init hpre hplay) _ (freed_of_frees hfree) 0 (by decide) hlnk

end SkiplistFraser

end Ascylib
