/-
# A ledger of unlinked nodes

Threads unlink nodes from a shared structure and give them back to an
allocator later. The ledger says who is to free what: every node that has been
linked is linked now, or freed, or owed by exactly one thread, and nothing is
freed twice. A step of a thread makes at most one `Entry`, and every entry
keeps the ledger (`Ledger.step`).
-/
import Mathlib.Data.List.Basic
import Mathlib.Logic.Function.Basic
import Mathlib.Tactic.Common

set_option linter.unusedSectionVars false

namespace Concur

variable {T α : Type*} [DecidableEq T]

/-- The books: `lnk` are the linked nodes, `pub` those that have been linked,
`owes t` the unlinked nodes that thread `t` is going to free, in this order,
and `hand t` a node of its own that it has not linked yet. -/
structure Ledger (used lnk pub : α → Prop) (freed : List α) (owes : T → List α)
    (hand : T → Option α) : Prop where
  once : freed.Nodup
  freed_used : ∀ x ∈ freed, used x
  freed_off : ∀ x ∈ freed, ¬ lnk x
  owed : ∀ t, ∀ x ∈ owes t, pub x ∧ ¬ lnk x ∧ x ∉ freed
  owed_once : ∀ t, (owes t).Nodup
  owed_one : ∀ t u x, x ∈ owes t → x ∈ owes u → t = u
  hand_own : ∀ t x, hand t = some x → used x ∧ ¬ pub x ∧ x ∉ freed
  hand_one : ∀ t u x, hand t = some x → hand u = some x → t = u
  settled : ∀ x, pub x → lnk x ∨ x ∈ freed ∨ ∃ t, x ∈ owes t

/-- What a step of one thread books, from its debts and the node in its hand
to those after the step. -/
inductive Ledger.Entry (used lnk : α → Prop) (freed : List α) : List α → Option α →
    (α → Prop) → (α → Prop) → List α → List α → Option α → Prop
  | none {ys h used' lnk'} : (∀ x, used x → used' x) → (∀ x, lnk' x ↔ lnk x) →
      Entry used lnk freed ys h used' lnk' freed ys h
  | take {ys used' lnk'} (n : α) : ¬ used n → used' n → (∀ x, used x → used' x) →
      (∀ x, lnk' x ↔ lnk x) → Entry used lnk freed ys .none used' lnk' freed ys (some n)
  | link {ys used' lnk'} (n : α) : (∀ x, used x → used' x) → (∀ x, lnk' x ↔ lnk x ∨ x = n) →
      Entry used lnk freed ys (some n) used' lnk' freed ys .none
  | unlink {h used' lnk'} (ys : List α) : (∀ x, used x → used' x) → ys.Nodup → (∀ x ∈ ys, lnk x) →
      (∀ x, lnk' x ↔ lnk x ∧ x ∉ ys) → Entry used lnk freed [] h used' lnk' freed ys h
  | free {ys h used' lnk'} (x : α) : (∀ x, used x → used' x) → (∀ x, lnk' x ↔ lnk x) →
      Entry used lnk freed (x :: ys) h used' lnk' (x :: freed) ys h
  | discard {ys used' lnk'} (x : α) : (∀ x, used x → used' x) → (∀ x, lnk' x ↔ lnk x) →
      Entry used lnk freed ys (some x) used' lnk' (x :: freed) ys .none

/-- A step that frees a node changes no link. -/
theorem Ledger.Entry.freed {used lnk used' lnk' : α → Prop} {fr fr' ys ys' : List α}
    {h h' : Option α} (e : Ledger.Entry used lnk fr ys h used' lnk' fr' ys' h') :
    fr' = fr ∨ ∀ x, lnk' x ↔ lnk x := by
  cases e with
  | none | take | link | unlink => exact Or.inl rfl
  | free x _ hl => exact Or.inr hl
  | discard x _ hl => exact Or.inr hl

namespace Ledger

variable {used lnk pub used' lnk' : α → Prop} {freed freed' : List α} {owes : T → List α}
  {hand : T → Option α} {t : T} {ys ys' : List α} {h h' : Option α}

/-- Nothing linked, owed or freed that is not there from the start. -/
theorem initial (h : ∀ x, pub x → lnk x) :
    Ledger used lnk pub [] (fun _ : T => []) fun _ => none where
  once := List.nodup_nil
  freed_used := by simp
  freed_off := by simp
  owed := by simp
  owed_once _ := List.nodup_nil
  owed_one := by simp
  hand_own := by simp
  hand_one := by simp
  settled x hx := Or.inl (h x hx)

section update

variable {β : Type*} {f : T → β} {v : β}

theorem update_none (hv : f t = v) : Function.update f t v = f := by
  rw [← hv, Function.update_eq_self]

theorem mem_update {f : T → List α} {ys : List α} {u : T} {x : α}
    (h : x ∈ Function.update f t ys u) : (u = t ∧ x ∈ ys) ∨ (u ≠ t ∧ x ∈ f u) := by
  by_cases hu : u = t
  · subst hu
    rw [Function.update_self] at h
    exact Or.inl ⟨rfl, h⟩
  · rw [Function.update_of_ne hu] at h
    exact Or.inr ⟨hu, h⟩

end update

variable (L : Ledger used lnk pub freed owes hand) (hlp : ∀ x, lnk x → pub x)

include L

/-- The books after a step that keeps the debts and the nodes in hand. -/
theorem congr (hu : ∀ x, used x → used' x) (hl : ∀ x, lnk' x ↔ lnk x) {pub' : α → Prop}
    (hp : ∀ x, pub' x ↔ pub x) : Ledger used' lnk' pub' freed owes hand where
  once := L.once
  freed_used x hx := hu x (L.freed_used x hx)
  freed_off x hx := by rw [hl]; exact L.freed_off x hx
  owed u x hx := by rw [hl, hp]; exact L.owed u x hx
  owed_once := L.owed_once
  owed_one := L.owed_one
  hand_own u x hx := by
    obtain ⟨h1, h2, h3⟩ := L.hand_own u x hx
    exact ⟨hu x h1, by rw [hp]; exact h2, h3⟩
  hand_one := L.hand_one
  settled x hx := by
    rw [hl]
    exact L.settled x ((hp x).mp hx)

theorem take {n : α} (hn : ¬ used n) (hp : ∀ x, pub x → used x) (h0 : hand t = none) :
    Ledger (fun x => used x ∨ x = n) lnk pub freed owes (Function.update hand t (some n)) where
  once := L.once
  freed_used x hx := Or.inl (L.freed_used x hx)
  freed_off := L.freed_off
  owed := L.owed
  owed_once := L.owed_once
  owed_one := L.owed_one
  hand_own u x hx := by
    by_cases hut : u = t
    · subst hut
      rw [Function.update_self] at hx
      cases hx
      exact ⟨Or.inr rfl, fun h => hn (hp n h), fun h => hn (L.freed_used n h)⟩
    · rw [Function.update_of_ne hut] at hx
      obtain ⟨h1, h2, h3⟩ := L.hand_own u x hx
      exact ⟨Or.inl h1, h2, h3⟩
  hand_one u v x hu hv := by
    -- a node in hand before the step is used, the new one was not
    have hne : ∀ w, hand w ≠ some n := fun w hw => hn (L.hand_own w n hw).1
    by_cases hut : u = t <;> by_cases hvt : v = t
    · rw [hut, hvt]
    · subst hut
      rw [Function.update_self] at hu
      rw [Function.update_of_ne hvt, ← hu] at hv
      exact absurd hv (hne v)
    · subst hvt
      rw [Function.update_self] at hv
      rw [Function.update_of_ne hut, ← hv] at hu
      exact absurd hu (hne u)
    · rw [Function.update_of_ne hut] at hu
      rw [Function.update_of_ne hvt] at hv
      exact L.hand_one u v x hu hv
  settled := L.settled

omit L in
theorem update_none_of {f : T → Option α} {u : T} {x : α}
    (h : Function.update f t none u = some x) : u ≠ t ∧ f u = some x := by
  by_cases hut : u = t
  · subst hut
    rw [Function.update_self] at h
    cases h
  · rw [Function.update_of_ne hut] at h
    exact ⟨hut, h⟩

theorem link {n : α} (hn : hand t = some n) : Ledger used (fun x => lnk x ∨ x = n)
    (fun x => pub x ∨ x = n) freed owes (Function.update hand t none) where
  once := L.once
  freed_used := L.freed_used
  freed_off x hx := by
    rintro (h | rfl)
    · exact L.freed_off x hx h
    · exact (L.hand_own t x hn).2.2 hx
  owed u x hx := by
    obtain ⟨h1, h2, h3⟩ := L.owed u x hx
    refine ⟨Or.inl h1, ?_, h3⟩
    rintro (h | rfl)
    · exact h2 h
    · exact (L.hand_own t x hn).2.1 h1
  owed_once := L.owed_once
  owed_one := L.owed_one
  hand_own u x hx := by
    obtain ⟨hut, hx⟩ := update_none_of hx
    obtain ⟨h1, h2, h3⟩ := L.hand_own u x hx
    refine ⟨h1, ?_, h3⟩
    rintro (h | rfl)
    · exact h2 h
    · exact hut (L.hand_one u t x hx hn)
  hand_one u v x hu hv :=
    L.hand_one u v x (update_none_of hu).2 (update_none_of hv).2
  settled x hx := by
    rcases hx with hx | rfl
    · exact (L.settled x hx).imp_left Or.inl
    · exact Or.inl (Or.inr rfl)

include hlp in
theorem unlink {ys : List α} (h0 : owes t = []) (hnd : ys.Nodup) (hys : ∀ x ∈ ys, lnk x) :
    Ledger used (fun x => lnk x ∧ x ∉ ys) pub freed (Function.update owes t ys) hand where
  once := L.once
  freed_used := L.freed_used
  freed_off x hx h := L.freed_off x hx h.1
  owed u x hx := by
    rcases mem_update hx with ⟨-, hy⟩ | ⟨-, hy⟩
    · exact ⟨hlp x (hys x hy), fun h => h.2 hy, fun hf => L.freed_off x hf (hys x hy)⟩
    · obtain ⟨h1, h2, h3⟩ := L.owed u x hy
      exact ⟨h1, fun h => h2 h.1, h3⟩
  owed_once u := by
    by_cases hut : u = t
    · subst hut; rwa [Function.update_self]
    · rw [Function.update_of_ne hut]; exact L.owed_once u
  owed_one u v x hu hv := by
    rcases mem_update hu with ⟨hut, hx⟩ | ⟨-, hx⟩ <;> rcases mem_update hv with ⟨hvt, hy⟩ | ⟨-, hy⟩
    · rw [hut, hvt]
    · exact absurd (hys x hx) (L.owed v x hy).2.1
    · exact absurd (hys x hy) (L.owed u x hx).2.1
    · exact L.owed_one u v x hx hy
  hand_own := L.hand_own
  hand_one := L.hand_one
  settled x hx := by
    by_cases hxy : x ∈ ys
    · exact Or.inr (Or.inr ⟨t, by rwa [Function.update_self]⟩)
    rcases L.settled x hx with h | h | ⟨u, h⟩
    · exact Or.inl ⟨h, hxy⟩
    · exact Or.inr (Or.inl h)
    · refine Or.inr (Or.inr ⟨u, ?_⟩)
      rw [Function.update_of_ne ?_]
      · exact h
      · rintro rfl
        rw [h0] at h
        cases h

include hlp in
theorem free {x : α} (hx : owes t = x :: ys) (hp : ∀ x, pub x → used x) :
    Ledger used lnk pub (x :: freed) (Function.update owes t ys) hand := by
  have hmem : x ∈ owes t := by rw [hx]; exact List.mem_cons_self
  obtain ⟨h1, h2, h3⟩ := L.owed t x hmem
  have hnd : (x :: ys).Nodup := hx ▸ L.owed_once t
  have hsub : ∀ u, ∀ y ∈ Function.update owes t ys u, y ∈ owes u ∧ y ≠ x := by
    intro u y hy
    rcases mem_update hy with ⟨rfl, hz⟩ | ⟨hut, hz⟩
    · refine ⟨by rw [hx]; exact List.mem_cons_of_mem _ hz, ?_⟩
      rintro rfl
      exact (List.nodup_cons.mp hnd).1 hz
    · refine ⟨hz, ?_⟩
      rintro rfl
      exact hut (L.owed_one u t y hz hmem)
  refine ⟨List.nodup_cons.mpr ⟨h3, L.once⟩, ?_, ?_, fun u y hy => ?_, fun u => ?_,
    fun u v y hu hv => L.owed_one u v y (hsub u y hu).1 (hsub v y hv).1, fun u y hy => ?_,
    L.hand_one, fun y hy => ?_⟩
  · intro y hy
    rcases List.mem_cons.mp hy with rfl | hy
    · exact hp y h1
    · exact L.freed_used y hy
  · intro y hy
    rcases List.mem_cons.mp hy with rfl | hy
    · exact h2
    · exact L.freed_off y hy
  · obtain ⟨hy, hne⟩ := hsub u y hy
    obtain ⟨h4, h5, h6⟩ := L.owed u y hy
    exact ⟨h4, h5, fun h => (List.mem_cons.mp h).elim hne h6⟩
  · by_cases hut : u = t
    · subst hut; rw [Function.update_self]; exact (List.nodup_cons.mp hnd).2
    · rw [Function.update_of_ne hut]; exact L.owed_once u
  · obtain ⟨h4, h5, h6⟩ := L.hand_own u y hy
    refine ⟨h4, h5, fun h => (List.mem_cons.mp h).elim ?_ h6⟩
    rintro rfl
    exact h5 h1
  · rcases L.settled y hy with h | h | ⟨u, h⟩
    · exact Or.inl h
    · exact Or.inr (Or.inl (List.mem_cons_of_mem _ h))
    · by_cases hyx : y = x
      · exact Or.inr (Or.inl (hyx ▸ List.mem_cons_self))
      · refine Or.inr (Or.inr ⟨u, ?_⟩)
        by_cases hut : u = t
        · subst hut
          rw [hx] at h
          rw [Function.update_self]
          exact (List.mem_cons.mp h).resolve_left hyx
        · rwa [Function.update_of_ne hut]

include hlp in
theorem discard {x : α} (hx : hand t = some x) :
    Ledger used lnk pub (x :: freed) owes (Function.update hand t none) := by
  obtain ⟨h1, h2, h3⟩ := L.hand_own t x hx
  refine ⟨List.nodup_cons.mpr ⟨h3, L.once⟩, ?_, ?_, fun u y hy => ?_, L.owed_once, L.owed_one,
    fun u y hy => ?_, fun u v y hu hv =>
      L.hand_one u v y (update_none_of hu).2 (update_none_of hv).2, fun y hy => ?_⟩
  · intro y hy
    rcases List.mem_cons.mp hy with rfl | hy
    · exact h1
    · exact L.freed_used y hy
  · intro y hy
    rcases List.mem_cons.mp hy with rfl | hy
    · exact fun hl => h2 (hlp y hl)
    · exact L.freed_off y hy
  · obtain ⟨h4, h5, h6⟩ := L.owed u y hy
    refine ⟨h4, h5, fun h => (List.mem_cons.mp h).elim ?_ h6⟩
    rintro rfl
    exact h2 h4
  · obtain ⟨hut, hy⟩ := update_none_of hy
    obtain ⟨h4, h5, h6⟩ := L.hand_own u y hy
    refine ⟨h4, h5, fun h => (List.mem_cons.mp h).elim ?_ h6⟩
    rintro rfl
    exact hut (L.hand_one u t y hy hx)
  · exact (L.settled y hy).imp_right fun h => h.imp_left (List.mem_cons_of_mem _)

include hlp in
/-- **Every entry keeps the books.** -/
theorem step (hp : ∀ x, pub x → used x)
    (e : Entry used lnk freed (owes t) (hand t) used' lnk' freed' ys' h') :
    Ledger used' lnk' (fun x => lnk' x ∨ pub x) freed' (Function.update owes t ys')
      (Function.update hand t h') := by
  have hpub : (∀ x, lnk' x → pub x) → ∀ x, lnk' x ∨ pub x ↔ pub x := fun h x =>
    ⟨fun hx => hx.elim (h x) id, Or.inr⟩
  generalize hys : owes t = ys at e
  generalize hh : hand t = h at e
  cases e with
  | none hu hl =>
    rw [update_none hys, update_none hh]
    exact L.congr hu hl (hpub fun x hx => hlp x ((hl x).mp hx))
  | take n hn hn' hu hl =>
    rw [update_none hys]
    refine (L.take hn hp hh).congr ?_ hl (hpub fun x hx => hlp x ((hl x).mp hx))
    rintro x (hx | rfl)
    · exact hu x hx
    · exact hn'
  | link n hu hl =>
    rw [update_none hys]
    refine (L.link hh).congr hu hl fun x => ?_
    rw [hl]
    have := hlp x
    tauto
  | unlink ys hu hnd hlk hl =>
    rw [update_none hh]
    exact (L.unlink hlp hys hnd hlk).congr hu hl (hpub fun x hx => hlp x ((hl x).mp hx).1)
  | free x hu hl =>
    rw [update_none hh]
    exact (L.free hlp hys hp).congr hu hl (hpub fun x hx => hlp x ((hl x).mp hx))
  | discard x hu hl =>
    rw [update_none hys]
    exact (L.discard hlp hh).congr hu hl (hpub fun x hx => hlp x ((hl x).mp hx))

end Ledger

end Concur
