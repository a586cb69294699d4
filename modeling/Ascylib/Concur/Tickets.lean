/-
# Tickets and the queue behind them

Two counters of `w` bits: `next` is the ticket that is drawn next, `served` the
one that is served. `Tickets` says that the tickets that are out are the numbers
from `served` up to `next`: first that of the holder, if there is one, and then
those of the waiting threads, in the order of a queue. The counters wrap; with
fewer than `2 ^ w` threads that does no harm.

Key definitions: `Tickets`, `Becomes`.
Key theorems: `Tickets.draw`, `Tickets.first`, `Tickets.grant`, `Tickets.free`, `Tickets.take`,
`Tickets.serve`, `Tickets.stuck`.
-/
import Mathlib.Data.BitVec
import Mathlib.Data.Fintype.Card
import Mathlib.Data.Fintype.List

namespace Concur

variable {T : Type*} {w : ℕ}

/-- The holder `h` and the queue `q` of the waiting threads have the tickets
from `served` on. -/
structure Tickets (served next : BitVec w) (holds : T → Prop) (ticket : T → Option (BitVec w))
    (h : Option T) (q : List T) : Prop where
  holder : ∀ t, holds t ↔ h = some t
  nodup : q.Nodup
  waits : ∀ t, ticket t ≠ none → t ∈ q
  place : ∀ i t, q[i]? = some t →
    ticket t = some (served + BitVec.ofNat w (h.toList.length + i))
  next : next = served + BitVec.ofNat w (h.toList.length + q.length)

/-- Thread `t` holds the lock if `b`, and has the ticket `k`, from now on. -/
structure Becomes (holds : T → Prop) (ticket : T → Option (BitVec w)) (t : T) (b : Prop)
    (k : Option (BitVec w)) (holds' : T → Prop) (ticket' : T → Option (BitVec w)) : Prop where
  self : holds' t ↔ b
  other : ∀ u, u ≠ t → (holds' u ↔ holds u)
  ticket_self : ticket' t = k
  ticket_other : ∀ u, u ≠ t → ticket' u = ticket u

variable {served next : BitVec w} {holds holds' : T → Prop} {ticket ticket' : T → Option (BitVec w)}
  {h : Option T} {q : List T} {t : T} {b : Prop} {k : Option (BitVec w)}

theorem add_ofNat_eq_self {n : ℕ} (hn : n < 2 ^ w) : served + BitVec.ofNat w n = served ↔ n = 0 := by
  constructor
  · intro he
    have h0 : BitVec.ofNat w n = 0#w := by
      have := congrArg (fun x => x - served) he
      simpa [BitVec.add_comm served, BitVec.add_sub_cancel] using this
    have := congrArg BitVec.toNat h0
    simpa [Nat.mod_eq_of_lt hn] using this
  · rintro rfl
    simp

theorem ofNat_succ (n : ℕ) : BitVec.ofNat w (n + 1) = BitVec.ofNat w n + 1 := by
  rw [BitVec.ofNat_add]
  rfl

/-! ### A thread becomes something else -/

namespace Becomes

variable (B : Becomes holds ticket t b k holds' ticket')

include B

theorem holds_same (hb : b ↔ holds t) (u : T) : holds' u ↔ holds u := by
  by_cases hut : u = t
  · subst hut
    exact B.self.trans hb
  · exact B.other u hut

theorem ticket_same (hk : k = ticket t) (u : T) : ticket' u = ticket u := by
  by_cases hut : u = t
  · subst hut
    exact B.ticket_self.trans hk
  · exact B.ticket_other u hut

/-- Nobody else has held the lock. -/
theorem only (hn : ∀ u, holds u → u = t) (u : T) : holds' u ↔ u = t ∧ b := by
  by_cases hut : u = t
  · subst hut
    simp [B.self]
  · rw [B.other u hut]
    exact ⟨fun hu => absurd (hn u hu) hut, fun hu => absurd hu.1 hut⟩

end Becomes

namespace Tickets

theorem initial (h : ∀ t, ¬ holds t) (ht : ∀ t, ticket t = none) :
    Tickets served served holds ticket none [] where
  holder t := ⟨fun ht => absurd ht (h t), nofun⟩
  nodup := .nil
  waits t hn := absurd (ht t) hn
  place i t hi := by simp at hi
  next := by simp

section

variable (H : Tickets served next holds ticket h q)

include H

theorem mem_iff : t ∈ q ↔ ticket t ≠ none := by
  refine ⟨fun ht hn => ?_, H.waits t⟩
  obtain ⟨i, hi⟩ := List.mem_iff_getElem?.mp ht
  rw [H.place i t hi] at hn
  cases hn

/-- At most one thread holds the lock. -/
theorem unique {u : T} (ht : holds t) (hu : holds u) : t = u := by
  have h1 := (H.holder t).mp ht
  rw [(H.holder u).mp hu, Option.some.injEq] at h1
  exact h1.symm

theorem length_le [Fintype T] : q.length ≤ Fintype.card T := H.nodup.length_le_card

/-- A thread that does not wait leaves a place in the queue. -/
theorem length_lt [Fintype T] (ht : ticket t = none) : q.length < Fintype.card T := by
  have hn : t ∉ q := fun hm => H.mem_iff.mp hm ht
  exact (List.nodup_cons.mpr ⟨hn, H.nodup⟩).length_le_card

theorem holder_length : h.toList.length ≤ 1 := by
  cases h with
  | none => exact Nat.zero_le 1
  | some _ => exact Nat.le_refl 1

/-- A thread does something else. -/
theorem same (B : Becomes holds ticket t b k holds' ticket') (hb : b ↔ holds t)
    (hk : k = ticket t) : Tickets served next holds' ticket' h q where
  holder u := (B.holds_same hb u).trans (H.holder u)
  nodup := H.nodup
  waits u hu := H.waits u (B.ticket_same hk u ▸ hu)
  place i u hi := (B.ticket_same hk u).trans (H.place i u hi)
  next := H.next

/-- A thread draws a ticket. -/
theorem draw (B : Becomes holds ticket t b k holds' ticket') (hb : b ↔ holds t)
    (ht : ticket t = none) (hk : k = some next) :
    Tickets served (next + 1) holds' ticket' h (q ++ [t]) := by
  have hn : t ∉ q := fun hm => H.mem_iff.mp hm ht
  refine ⟨fun u => (B.holds_same hb u).trans (H.holder u), ?_, fun u hu => ?_, fun i u hi => ?_, ?_⟩
  · refine List.nodup_append.mpr ⟨H.nodup, List.nodup_singleton t, fun a ha b hb hab => hn ?_⟩
    rwa [← List.mem_singleton.mp hb, ← hab]
  · by_cases hut : u = t
    · simp [hut]
    · rw [B.ticket_other u hut] at hu
      exact List.mem_append_left _ (H.waits u hu)
  · rw [List.getElem?_append] at hi
    split at hi
    · have hut : u ≠ t := by
        rintro rfl
        exact hn (List.mem_of_getElem? hi)
      rw [B.ticket_other u hut]
      exact H.place i u hi
    · have hlen : i = q.length := by
        rcases Nat.lt_or_ge (i - q.length) 1 with h1 | h1
        · omega
        · rw [List.getElem?_eq_none (by simpa using h1)] at hi
          cases hi
      subst hlen
      simp only [Nat.sub_self, List.getElem?_cons_zero, Option.some.injEq] at hi
      rw [← hi, B.ticket_self, hk, H.next]
  · rw [List.length_append, List.length_singleton, ← Nat.add_assoc, ofNat_succ, ← BitVec.add_assoc,
      ← H.next]

/-- **The ticket that is served is that of the first in the queue**, and there
is no holder. -/
theorem first (hq : q.length < 2 ^ w) (ht : ticket t = some served) :
    h = none ∧ ∃ q', q = t :: q' := by
  obtain ⟨i, hi⟩ := List.mem_iff_getElem?.mp (H.waits t (by rw [ht]; nofun))
  have hlt : i < q.length := (List.getElem?_eq_some_iff.mp hi).1
  have hle := H.holder_length
  have he := H.place i t hi
  rw [ht, Option.some.injEq, eq_comm, add_ofNat_eq_self (by omega)] at he
  obtain ⟨h0, rfl⟩ : h.toList.length = 0 ∧ i = 0 := by omega
  refine ⟨?_, ?_⟩
  · cases h with
    | none => rfl
    | some _ => simp at h0
  · cases q with
    | nil => simp at hi
    | cons u q' =>
      simp only [List.getElem?_cons_zero, Option.some.injEq] at hi
      exact ⟨q', by rw [hi]⟩

/-- If the next ticket is the one that is served, none is out. -/
theorem free (hn : next = served) (hlen : q.length + 1 < 2 ^ w) : h = none ∧ q = [] := by
  have hle := H.holder_length
  have he := H.next
  rw [hn, eq_comm, add_ofNat_eq_self (by omega)] at he
  obtain ⟨h0, h1⟩ : h.toList.length = 0 ∧ q.length = 0 := by omega
  refine ⟨?_, List.length_eq_zero_iff.mp h1⟩
  cases h with
  | none => rfl
  | some _ => simp at h0

end

/-- The first in the queue becomes the holder. -/
theorem grant (H : Tickets served next holds ticket none (t :: q))
    (B : Becomes holds ticket t b k holds' ticket') (hb : b) (hk : k = none) :
    Tickets served next holds' ticket' (some t) q := by
  obtain ⟨hn, hnd⟩ := List.nodup_cons.mp H.nodup
  refine ⟨fun u => ?_, hnd, fun u hu => ?_, fun i u hi => ?_, ?_⟩
  · rw [B.only (fun u hu => by simp [H.holder] at hu), Option.some.injEq, eq_comm]
    simp [hb]
  · have hut : u ≠ t := by
      rintro rfl
      exact hu (B.ticket_self.trans hk)
    rw [B.ticket_other u hut] at hu
    exact (List.mem_cons.mp (H.waits u hu)).resolve_left hut
  · have hut : u ≠ t := by
      rintro rfl
      exact hn (List.mem_of_getElem? hi)
    rw [B.ticket_other u hut, H.place (i + 1) u (by simpa using hi)]
    simp [Nat.add_comm]
  · rw [H.next]
    simp [Nat.add_comm]

/-- A thread takes a ticket and is the holder at once. -/
theorem take (H : Tickets served next holds ticket none [])
    (B : Becomes holds ticket t b k holds' ticket') (hb : b) (hk : k = ticket t) :
    Tickets served (next + 1) holds' ticket' (some t) [] where
  holder u := by
    rw [B.only (fun u hu => by simp [H.holder] at hu), Option.some.injEq, eq_comm]
    simp [hb]
  nodup := .nil
  waits u hu := H.waits u (B.ticket_same hk u ▸ hu)
  place i u hi := by simp at hi
  next := by
    rw [H.next]
    simp

/-- **Without a holder the lock is free, or its ticket is that of a waiting
thread.** -/
theorem available (H : Tickets served next holds ticket none q) :
    next = served ∨ ∃ t, ticket t = some served := by
  cases q with
  | nil =>
    left
    rw [H.next]
    simp
  | cons t q =>
    right
    refine ⟨t, ?_⟩
    rw [H.place 0 t (by simp)]
    simp

section

variable (H : Tickets served next holds ticket (some t) q)

include H

/-- Nobody holds the lock once its holder does not. -/
theorem given (B : Becomes holds ticket t b k holds' ticket') (hb : ¬ b) (u : T) : ¬ holds' u := by
  rw [B.only fun u hu => Option.some.inj ((H.holder u).mp hu).symm]
  exact fun hu => hb hu.2

/-- The holder has the next ticket served. -/
theorem serve (B : Becomes holds ticket t b k holds' ticket') (hb : ¬ b) (hk : k = ticket t) :
    Tickets (served + 1) next holds' ticket' none q where
  holder u := ⟨fun hu => absurd hu (H.given B hb u), nofun⟩
  nodup := H.nodup
  waits u hu := H.waits u (B.ticket_same hk u ▸ hu)
  place i u hi := by
    rw [B.ticket_same hk u, H.place i u hi, Option.toList_some, Option.toList_none,
      List.length_singleton, List.length_nil, Nat.add_comm 1 i, ofNat_succ, Nat.zero_add,
      BitVec.add_assoc, BitVec.add_comm 1]
  next := by
    rw [H.next, Option.toList_some, Option.toList_none, List.length_singleton, List.length_nil,
      Nat.add_comm 1 q.length, ofNat_succ, Nat.zero_add, BitVec.add_assoc, BitVec.add_comm 1]

/-- A holder that takes its ticket back in front of a queue leaves nobody whose
ticket is served. -/
theorem stuck (hq : q ≠ []) (hlen : q.length < 2 ^ w) :
    next - 1 ≠ served ∧ ∀ u, ticket u ≠ some served := by
  have hpos : 0 < q.length := List.length_pos_iff.mpr hq
  constructor
  · have hnext : next - 1 = served + BitVec.ofNat w q.length := by
      rw [H.next, Option.toList_some, List.length_singleton, Nat.add_comm 1 q.length, ofNat_succ,
        ← BitVec.add_assoc, BitVec.add_sub_cancel]
    rw [hnext, ne_eq, add_ofNat_eq_self hlen]
    omega
  · intro u hu
    obtain ⟨i, hi⟩ := List.mem_iff_getElem?.mp (H.waits u (by rw [hu]; nofun))
    have hlt : i < q.length := (List.getElem?_eq_some_iff.mp hi).1
    have he := H.place i u hi
    rw [hu, Option.some.injEq, eq_comm, Option.toList_some, List.length_singleton,
      add_ofNat_eq_self (by omega)] at he
    omega

end

/-- The only ticket is taken back. -/
theorem revert (H : Tickets served next holds ticket (some t) [])
    (B : Becomes holds ticket t b k holds' ticket') (hb : ¬ b) (hk : k = ticket t) :
    Tickets served (next - 1) holds' ticket' none [] where
  holder u := ⟨fun hu => absurd hu (H.given B hb u), nofun⟩
  nodup := .nil
  waits u hu := H.waits u (B.ticket_same hk u ▸ hu)
  place i u hi := by simp at hi
  next := by
    rw [H.next]
    simp

end Tickets

end Concur
