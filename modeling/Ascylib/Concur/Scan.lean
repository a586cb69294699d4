/-
# Scanning a sorted list

A search in a sorted list goes on while the key of the next node is too small
(`scan`). A key cuts the nodes in two (`Cut`): the scan ends between the last
of the smaller ones and the first of the others, wherever on the smaller ones
it begins (`Path.scan`). A node is linked or unlinked there (`Path.link`,
`Path.unlink`).

Key definitions: `scan`, `Cut`.
Key theorems: `Path.scan`, `Path.link`, `Path.unlink`, `exists_cut`.
-/
import Ascylib.Concur.Path
import Mathlib.Order.Lattice

namespace Concur

variable {α β K : Type*}

/-! ### A list and a key -/

section cut

variable [LinearOrder K] {key : α → K} {k : K} {lo hi l : List α} {x n : α}

/-- The nodes with smaller keys, and the others. -/
structure Cut (key : α → K) (k : K) (lo hi : List α) : Prop where
  lt : ∀ x ∈ lo, key x < k
  le : ∀ x ∈ hi, k ≤ key x

theorem exists_cut (h : l.Pairwise fun x y => key x < key y) (k : K) :
    ∃ lo hi, l = lo ++ hi ∧ Cut key k lo hi := by
  induction l with
  | nil => exact ⟨[], [], rfl, nofun, nofun⟩
  | cons x l ih =>
    obtain ⟨hx, hl⟩ := List.pairwise_cons.mp h
    by_cases hk : key x < k
    · obtain ⟨lo, hi, rfl, hc⟩ := ih hl
      exact ⟨x :: lo, hi, rfl, List.forall_mem_cons.mpr ⟨hk, hc.lt⟩, hc.le⟩
    · have hk := not_lt.mp hk
      exact ⟨[], x :: l, rfl, nofun, List.forall_mem_cons.mpr ⟨hk, fun y hy => hk.trans (hx y hy).le⟩⟩

namespace Cut

theorem filter (h : Cut key k lo hi) (p : α → Bool) : Cut key k (lo.filter p) (hi.filter p) :=
  ⟨fun x hx => h.lt x (List.mem_filter.mp hx).1, fun x hx => h.le x (List.mem_filter.mp hx).1⟩

theorem map {key' : β → K} {f : α → β} (h : Cut key k lo hi) (hf : ∀ x ∈ lo ++ hi, key' (f x) = key x) :
    Cut key' k (lo.map f) (hi.map f) := by
  refine ⟨fun y hy => ?_, fun y hy => ?_⟩ <;> obtain ⟨x, hx, rfl⟩ := List.mem_map.mp hy
  · rw [hf x (List.mem_append_left hi hx)]
    exact h.lt x hx
  · rw [hf x (List.mem_append_right lo hx)]
    exact h.le x hx

/-- The nodes before the cut are those that a scan passes. -/
theorem takeWhile (h : Cut key k lo hi) : (lo ++ hi).takeWhile (fun x => decide (key x < k)) = lo := by
  rw [List.takeWhile_append_of_pos fun x hx => decide_eq_true (h.lt x hx)]
  cases hi with
  | nil => simp
  | cons x hi => simp [not_lt.mpr (h.le x List.mem_cons_self)]

theorem dropWhile (h : Cut key k lo hi) : (lo ++ hi).dropWhile (fun x => decide (key x < k)) = hi := by
  rw [List.dropWhile_append_of_pos fun x hx => decide_eq_true (h.lt x hx)]
  cases hi with
  | nil => simp
  | cons x hi => simp [not_lt.mpr (h.le x List.mem_cons_self)]

/-- If the first node behind the cut has another key, so have all. -/
theorem lt_of_headD_ne {nil : α} (h : Cut key k lo hi) (hs : hi.Pairwise fun x y => key x < key y)
    (hne : k ≠ key (hi.headD nil)) (hx : x ∈ hi) : k < key x := by
  cases hi with
  | nil => cases hx
  | cons y hi =>
    have hky : k < key y := lt_of_le_of_ne (h.le y List.mem_cons_self) hne
    rcases List.mem_cons.mp hx with rfl | hx
    · exact hky
    · exact hky.trans ((List.pairwise_cons.mp hs).1 x hx)

/-- A node with the key goes where the key cuts. -/
theorem insert {nil : α} {key' : α → K} (h : Cut key k lo hi)
    (hs : (lo ++ hi).Pairwise fun x y => key x < key y) (hne : k ≠ key (hi.headD nil))
    (he : ∀ x ∈ lo ++ hi, key' x = key x) (hn : key' n = k) :
    (lo ++ n :: hi).Pairwise fun x y => key' x < key' y := by
  have hs' : (lo ++ hi).Pairwise fun x y => key' x < key' y :=
    hs.imp_of_mem fun {x y} hx hy hxy => by
      rw [he x hx, he y hy]
      exact hxy
  obtain ⟨h1, h2, h3⟩ := List.pairwise_append.mp hs'
  refine List.pairwise_append.mpr ⟨h1, List.pairwise_cons.mpr ⟨fun y hy => ?_, h2⟩, fun x hx y hy => ?_⟩
  · rw [hn, he y (List.mem_append_right lo hy)]
    exact h.lt_of_headD_ne (List.pairwise_append.mp hs).2.1 hne hy
  · rcases List.mem_cons.mp hy with rfl | hy
    · rw [hn, he x (List.mem_append_left hi hx)]
      exact h.lt x hx
    · exact h3 x hx y hy

end Cut

end cut

/-! ### The scan -/

section scan

/-- `while (below(next)) { curr = next; next = curr->next; }`, for so many
rounds at most. -/
def scan (nxt : α → α) (below : α → Prop) [DecidablePred below] : ℕ → α → α → Option (α × α)
  | 0, _, _ => none
  | rounds + 1, curr, next =>
    if below next then scan nxt below rounds next (nxt next) else some (curr, next)

variable {nxt nxt' : α → α} {nil p q : α} {lo hi l : List α}

theorem Path.eq_headD (h : Path nxt nil p l) : p = l.headD nil := by
  cases l with
  | nil => exact h
  | cons x l => exact h.1

theorem Path.scan_list {below : α → Prop} [DecidablePred below] {rounds : ℕ} {curr next : α}
    (h : Path nxt nil next (lo ++ hi)) (hlo : ∀ x ∈ lo, below x) (hhi : ¬ below (hi.headD nil))
    (hr : lo.length < rounds) :
    scan nxt below rounds curr next = some (lo.getLastD curr, hi.headD nil) := by
  induction lo generalizing rounds curr next with
  | nil =>
    obtain ⟨r, rfl⟩ := Nat.exists_eq_succ_of_ne_zero (Nat.ne_zero_of_lt hr)
    have hn : next = hi.headD nil := h.eq_headD
    rw [scan, if_neg (hn ▸ hhi), hn]
    rfl
  | cons x lo ih =>
    obtain ⟨r, rfl⟩ := Nat.exists_eq_succ_of_ne_zero (Nat.ne_zero_of_lt hr)
    obtain ⟨rfl, -, h⟩ := h
    rw [scan, if_pos (hlo next List.mem_cons_self)]
    rw [ih h (fun y hy => hlo y (List.mem_cons_of_mem _ hy)) (Nat.lt_of_succ_lt_succ hr)]
    cases lo <;> rfl

/-- The last node before the cut, or the head. -/
theorem exists_getLastD (p : α) (lo : List α) : ∃ a, p :: lo = a ++ [lo.getLastD p] := by
  induction lo generalizing p with
  | nil => exact ⟨[], rfl⟩
  | cons x lo ih =>
    obtain ⟨a, ha⟩ := ih x
    refine ⟨p :: a, ?_⟩
    rw [List.getLastD_cons, ha]
    rfl

/-- **A scan ends at the cut**, wherever before it the scan begins. -/
theorem Path.scan [LinearOrder K] {key : α → K} {k : K} {rounds : ℕ}
    (h : Path nxt nil p (p :: (lo ++ hi))) (hc : Cut key k lo hi) (hnil : k ≤ key nil)
    (hq : q ∈ p :: lo) (hr : lo.length < rounds) :
    Concur.scan nxt (fun x => key x < k) rounds q (nxt q) = some (lo.getLastD p, hi.headD nil) := by
  obtain ⟨a, b, hab⟩ := List.append_of_mem hq
  have hlast : b.getLastD q = lo.getLastD p := by
    obtain ⟨c, hc⟩ := exists_getLastD q b
    obtain ⟨d, hd⟩ := exists_getLastD p lo
    rw [hd, hc, ← List.append_assoc] at hab
    exact (List.append_inj_right' hab rfl |> List.singleton_inj.mp).symm
  have hmem : ∀ x ∈ b, key x < k := by
    intro x hx
    cases a with
    | nil =>
      obtain ⟨-, rfl⟩ := List.cons.inj hab
      exact hc.lt x hx
    | cons y a =>
      obtain ⟨-, rfl⟩ := List.cons.inj hab
      exact hc.lt x (List.mem_append_right a (List.mem_cons_of_mem q hx))
  have hpath : Path nxt nil (nxt q) (b ++ hi) := by
    rw [← List.cons_append, hab, List.append_assoc] at h
    exact h.drop
  have hlen : b.length ≤ lo.length := by
    have := congrArg List.length hab
    simp only [List.length_cons, List.length_append] at this
    omega
  have hhi : ¬ key (hi.headD nil) < k := by
    cases hi with
    | nil => exact not_lt.mpr hnil
    | cons x hi => exact not_lt.mpr (hc.le x List.mem_cons_self)
  rw [hpath.scan_list hmem hhi (Nat.lt_of_le_of_lt hlen hr), hlast]

/-- The nodes behind the cut. -/
theorem Path.behind (h : Path nxt nil p (p :: (lo ++ hi))) : Path nxt nil (nxt (lo.getLastD p)) hi := by
  obtain ⟨a, ha⟩ := exists_getLastD p lo
  rw [← List.cons_append, ha, List.append_assoc] at h
  exact h.drop

/-- What is behind the cut is exchanged. -/
theorem Path.splice (h : Path nxt nil p (p :: (lo ++ hi))) (hl : Path nxt' nil (nxt' (lo.getLastD p)) l)
    (he : ∀ x ∈ p :: lo, x ≠ lo.getLastD p → nxt' x = nxt x) : Path nxt' nil p (p :: (lo ++ l)) := by
  obtain ⟨a, ha⟩ := exists_getLastD p lo
  have hn := h.nodup
  rw [← List.cons_append, ha, List.append_assoc] at h hn ⊢
  refine h.redirect hl fun x hx => he x ?_ ?_
  · rw [ha]
    exact List.mem_append_left _ hx
  · rintro rfl
    exact (List.nodup_append.mp hn).2.2 _ hx _ (by simp) rfl

theorem getLastD_mem (p : α) (lo : List α) : lo.getLastD p ∈ p :: lo := by
  obtain ⟨a, ha⟩ := exists_getLastD p lo
  rw [ha]
  simp

theorem Path.getLastD_notMem (h : Path nxt nil p (p :: (lo ++ hi))) : lo.getLastD p ∉ hi := by
  have hn := h.nodup
  rw [← List.cons_append] at hn
  exact fun hx => (List.nodup_append.mp hn).2.2 _ (getLastD_mem p lo) _ hx rfl

/-- A node is linked at the cut. -/
theorem Path.link {n : α} (h : Path nxt nil p (p :: (lo ++ hi))) (hnil : n ≠ nil)
    (h1 : nxt' (lo.getLastD p) = n) (h2 : nxt' n = hi.headD nil)
    (he : ∀ x ∈ p :: (lo ++ hi), x ≠ lo.getLastD p → nxt' x = nxt x) :
    Path nxt' nil p (p :: (lo ++ n :: hi)) := by
  refine h.splice ?_ fun x hx hxp => he x (List.mem_append_left hi hx) hxp
  rw [h1]
  refine ⟨rfl, hnil, ?_⟩
  rw [h2, ← h.behind.eq_headD]
  refine h.behind.congr fun x hx => he x (List.mem_append_right (p :: lo) hx) ?_
  rintro rfl
  exact h.getLastD_notMem hx

/-- The first node behind the cut is unlinked. -/
theorem Path.unlink {x : α} (h : Path nxt nil p (p :: (lo ++ x :: hi)))
    (h1 : nxt' (lo.getLastD p) = nxt x)
    (he : ∀ y ∈ p :: (lo ++ hi), y ≠ lo.getLastD p → nxt' y = nxt y) :
    Path nxt' nil p (p :: (lo ++ hi)) := by
  refine h.splice ?_ fun y hy hyp => he y (List.mem_append_left hi hy) hyp
  rw [h1]
  refine h.behind.2.2.congr fun y hy => he y (List.mem_append_right (p :: lo) hy) ?_
  rintro rfl
  exact h.getLastD_notMem (List.mem_cons_of_mem x hy)

end scan

end Concur
