/-
# Singly linked lists up to `nil`

A list in a heap is read along `nxt` from a pointer until `nil` comes
(`Path`). What is met is determined (`nodes`), so an order of the nodes can be
read off a heap: `y ∈ nodes x` says that `y` comes after `x`, or is `x`. While
the list only grows at its end, this order stays as it is (`nodes_append`).
`Reach` says the same of heaps in which the end may not come.

Key definitions: `Path`, `Reach`, `nodes`.
Key theorems: `Path.nodup`, `Path.redirect`, `Reach.unlink`, `mem_nodes_trans`,
`mem_nodes_antisymm`, `nodes_append`.
-/
import Mathlib.Data.List.Nodup
import Mathlib.Logic.Function.Basic
import Mathlib.Logic.Relation

namespace Concur

section path

variable {α : Type*} {nxt nxt' : α → α} {nil : α}

/-- From the pointer `p` these nodes are met, in this order, and then `nil`. -/
def Path (nxt : α → α) (nil : α) : α → List α → Prop
  | p, [] => p = nil
  | p, x :: l => p = x ∧ x ≠ nil ∧ Path nxt nil (nxt x) l

theorem Path.unique {p : α} {l l' : List α} (h : Path nxt nil p l) (h' : Path nxt nil p l') :
    l = l' := by
  induction l generalizing p l' with
  | nil =>
    cases l' with
    | nil => rfl
    | cons y l' =>
      obtain ⟨h1, h2, -⟩ := h'
      exact absurd (h1.symm.trans h) h2
  | cons x l ih =>
    obtain ⟨h1, h2, h3⟩ := h
    cases l' with
    | nil => exact absurd (h1.symm.trans h') h2
    | cons y l' =>
      obtain ⟨h4, -, h5⟩ := h'
      obtain rfl : x = y := h1.symm.trans h4
      rw [ih h3 h5]

theorem Path.ne_nil {p x : α} {l : List α} (h : Path nxt nil p l) (hx : x ∈ l) : x ≠ nil := by
  induction l generalizing p with
  | nil => cases hx
  | cons y l ih =>
    rcases List.mem_cons.mp hx with rfl | hx
    · exact h.2.1
    · exact ih h.2.2 hx

theorem Path.exists_cons {p : α} {l : List α} (h : Path nxt nil p l) (hp : p ≠ nil) :
    ∃ l', l = p :: l' := by
  cases l with
  | nil => exact absurd h hp
  | cons x l => exact ⟨l, by rw [h.1]⟩

theorem Path.eq_nil {p : α} {l : List α} (h : Path nxt nil p l) (hp : p = nil) : l = [] := by
  cases l with
  | nil => rfl
  | cons x l => exact absurd (h.1.symm.trans hp) h.2.1

/-- A list is read the same in a heap that agrees on its nodes. -/
theorem Path.congr {p : α} {l : List α} (h : Path nxt nil p l) (he : ∀ x ∈ l, nxt' x = nxt x) :
    Path nxt' nil p l := by
  induction l generalizing p with
  | nil => exact h
  | cons y l ih =>
    obtain ⟨h1, h2, h3⟩ := h
    have hy := he y List.mem_cons_self
    exact ⟨h1, h2, by rw [hy]; exact ih h3 fun x hx => he x (List.mem_cons_of_mem y hx)⟩

/-- The list from one of its nodes on. -/
theorem Path.split {p x : α} {l : List α} (h : Path nxt nil p l) (hx : x ∈ l) :
    ∃ l₁ l₂, l = l₁ ++ x :: l₂ ∧ Path nxt nil x (x :: l₂) := by
  induction l generalizing p with
  | nil => cases hx
  | cons y l ih =>
    obtain ⟨-, h2, h3⟩ := h
    rcases List.mem_cons.mp hx with rfl | hx
    · exact ⟨[], l, rfl, rfl, h2, h3⟩
    · obtain ⟨l₁, l₂, rfl, h4⟩ := ih h3 hx
      exact ⟨y :: l₁, l₂, rfl, h4⟩

/-- No node is met twice. -/
theorem Path.nodup {p : α} {l : List α} (h : Path nxt nil p l) : l.Nodup := by
  induction l generalizing p with
  | nil => exact List.nodup_nil
  | cons x l ih =>
    obtain ⟨-, h2, h3⟩ := h
    refine List.nodup_cons.mpr ⟨fun hx => ?_, ih h3⟩
    obtain ⟨l₁, l₂, he, h4⟩ := h3.split hx
    have hl : l₂ = l := h4.2.2.unique h3
    have hlen := congrArg List.length he
    rw [hl, List.length_append, List.length_cons] at hlen
    omega

/-- A node is put after the last one. -/
theorem Path.append {p z n : α} {l : List α} (h : Path nxt nil p l) (hz : z ∈ l)
    (hlast : nxt z = nil) (hn : n ∉ l) (hnil : n ≠ nil) (hz' : nxt' z = n) (hn' : nxt' n = nil)
    (he : ∀ x ∈ l, x ≠ z → nxt' x = nxt x) : Path nxt' nil p (l ++ [n]) := by
  induction l generalizing p with
  | nil => cases hz
  | cons x l ih =>
    obtain ⟨h1, h2, h3⟩ := h
    refine ⟨h1, h2, ?_⟩
    by_cases hx : x = z
    · subst hx
      rw [hlast] at h3
      have hnil' : Path nxt nil nil [] := rfl
      have hl : l = [] := h3.unique hnil'
      subst hl
      exact ⟨hz', hnil, hn'⟩
    · rw [he x List.mem_cons_self hx]
      have hzl : z ∈ l := (List.mem_cons.mp hz).resolve_left (Ne.symm hx)
      exact ih h3 hzl (fun h => hn (List.mem_cons_of_mem x h)) fun y hy =>
        he y (List.mem_cons_of_mem x hy)

/-- A list whose pointer behind `z` is changed. -/
theorem Path.redirect {p z : α} {l l₁ l₂ : List α} (h : Path nxt nil p (l ++ z :: l₁))
    (hl : Path nxt' nil (nxt' z) l₂) (he : ∀ x ∈ l, nxt' x = nxt x) :
    Path nxt' nil p (l ++ z :: l₂) := by
  induction l generalizing p with
  | nil => exact ⟨h.1, h.2.1, hl⟩
  | cons x l ih =>
    obtain ⟨h1, h2, h3⟩ := h
    refine ⟨h1, h2, ?_⟩
    rw [he x List.mem_cons_self]
    exact ih h3 fun y hy => he y (List.mem_cons_of_mem x hy)

/-- The list behind a stretch of it. -/
theorem Path.drop {p z : α} {l l₁ : List α} (h : Path nxt nil p (l ++ z :: l₁)) :
    Path nxt nil (nxt z) l₁ := by
  induction l generalizing p with
  | nil => exact h.2.2
  | cons x l ih => exact ih h.2.2

/-- The end of a list, from its first node. -/
theorem Path.suffix {p q : α} {l l₁ l₂ : List α} (h : Path nxt nil p l) (hl : l = l₁ ++ q :: l₂) :
    Path nxt nil q (q :: l₂) := by
  subst hl
  induction l₁ generalizing p with
  | nil => exact ⟨rfl, h.2⟩
  | cons x l₁ ih => exact ih h.2.2

end path

/-! ### Reachable nodes -/

section reach

variable {α : Type*} {nxt nxt' : α → α} {nil : α} {p q x y z : α}

/-- From the pointer `p` the pointer `x` is met. -/
def Reach (nxt : α → α) (nil : α) : α → α → Prop :=
  Relation.ReflTransGen fun x y => x ≠ nil ∧ nxt x = y

/-- Nothing is met behind the end. -/
theorem Reach.eq_nil (h : Reach nxt nil nil x) : x = nil := by
  rcases h.cases_head with h | ⟨y, ⟨h, -⟩, -⟩
  · exact h.symm
  · exact absurd rfl h

/-- What is met is the first node or met behind it. -/
theorem Reach.next (h : Reach nxt nil p x) (hne : p ≠ x) : Reach nxt nil (nxt p) x := by
  rcases h.cases_head with h | ⟨y, ⟨-, rfl⟩, h⟩
  · exact absurd h hne
  · exact h

theorem Reach.congr (h : Reach nxt nil p x) (he : ∀ y, Reach nxt nil p y → y ≠ nil → nxt' y = nxt y) :
    Reach nxt' nil p x := by
  induction h with
  | refl => exact .refl
  | @tail y z hy hyz ih =>
    obtain ⟨hne, rfl⟩ := hyz
    exact ih.tail ⟨hne, he y hy hne⟩

/-- A change of the pointer behind the last node. -/
theorem Reach.append (h : Reach nxt nil p x) (hx : x ≠ nil) (hz : nxt z = nil)
    (he : ∀ y, Reach nxt nil p y → y ≠ nil → y ≠ z → nxt' y = nxt y) : Reach nxt' nil p x := by
  induction h with
  | refl => exact .refl
  | @tail y w hy hyw ih =>
    obtain ⟨hne, rfl⟩ := hyw
    have hyz : y ≠ z := by
      rintro rfl
      exact hx hz
    exact (ih hne).tail ⟨hne, he y hy hne hyz⟩

/-- A pointer is swung over the node `y`: all others are met as before. -/
theorem Reach.unlink (h : Reach nxt nil p x) (hz : nxt z = y) (hz' : nxt' z = nxt y)
    (he : ∀ w, Reach nxt nil p w → w ≠ nil → w ≠ z → nxt' w = nxt w) :
    Reach nxt' nil p x ∨ x = y ∧ Reach nxt' nil p (nxt y) := by
  induction h with
  | refl => exact Or.inl .refl
  | @tail w x hw hwx ih =>
    obtain ⟨hw0, rfl⟩ := hwx
    rcases ih with ih | ⟨rfl, ih⟩
    · by_cases hwz : w = z
      · subst hwz
        exact Or.inr ⟨hz, ih.tail ⟨hw0, hz'⟩⟩
      · exact Or.inl (ih.tail ⟨hw0, he w hw hw0 hwz⟩)
    · exact Or.inl ih

theorem Path.reach {l : List α} (h : Path nxt nil p l) (hx : x ∈ l) : Reach nxt nil p x := by
  induction l generalizing p with
  | nil => cases hx
  | cons y l ih =>
    obtain ⟨rfl, h2, h3⟩ := h
    rcases List.mem_cons.mp hx with rfl | hx
    · exact .refl
    · exact Relation.ReflTransGen.head ⟨h2, rfl⟩ (ih h3 hx)

end reach

/-! ### The nodes from a pointer on -/

section nodes

variable {α : Type*} {nxt nxt' : α → α} {nil : α} {x y z : α} {l : List α}

open Classical in
/-- The nodes met from the pointer `p` on. -/
noncomputable def nodes (nxt : α → α) (nil p : α) : List α :=
  if h : ∃ l, Path nxt nil p l then h.choose else []

theorem Path.nodes_eq {p : α} (h : Path nxt nil p l) : nodes nxt nil p = l := by
  have hex : ∃ l, Path nxt nil p l := ⟨l, h⟩
  rw [nodes, dif_pos hex]
  exact hex.choose_spec.unique h

theorem nodes_nil : nodes nxt nil nil = [] := Path.nodes_eq rfl

theorem path_of_mem (h : y ∈ nodes nxt nil x) : Path nxt nil x (nodes nxt nil x) := by
  by_cases hex : ∃ l, Path nxt nil x l
  · obtain ⟨l, hl⟩ := hex
    rw [hl.nodes_eq]
    exact hl
  · rw [nodes, dif_neg hex] at h
    cases h

theorem ne_nil_of_mem (h : y ∈ nodes nxt nil x) : y ≠ nil := (path_of_mem h).ne_nil h

/-- The list from a node of it on is its end. -/
theorem nodes_suffix (h : y ∈ nodes nxt nil x) : nodes nxt nil y <:+ nodes nxt nil x := by
  obtain ⟨l₁, l₂, he, hp⟩ := (path_of_mem h).split h
  rw [hp.nodes_eq, he]
  exact ⟨l₁, rfl⟩

theorem path_self (h : y ∈ nodes nxt nil x) : Path nxt nil y (nodes nxt nil y) := by
  obtain ⟨l₁, l₂, -, hp⟩ := (path_of_mem h).split h
  rw [hp.nodes_eq]
  exact hp

theorem nodes_cons (h : y ∈ nodes nxt nil x) :
    nodes nxt nil y = y :: nodes nxt nil (nxt y) := by
  obtain ⟨l₁, l₂, -, hp⟩ := (path_of_mem h).split h
  rw [hp.nodes_eq, hp.2.2.nodes_eq]

theorem mem_nodes_self (h : y ∈ nodes nxt nil x) : y ∈ nodes nxt nil y := by
  rw [nodes_cons h]
  exact List.mem_cons_self

theorem mem_nodes_trans (hxy : y ∈ nodes nxt nil x) (hyz : z ∈ nodes nxt nil y) :
    z ∈ nodes nxt nil x :=
  (nodes_suffix hxy).subset hyz

theorem mem_nodes_antisymm (hxy : y ∈ nodes nxt nil x) (hyx : x ∈ nodes nxt nil y) : x = y := by
  have h1 := nodes_suffix hxy
  have h2 := nodes_suffix hyx
  have he : nodes nxt nil y = nodes nxt nil x := h1.eq_of_length (Nat.le_antisymm h1.length_le h2.length_le)
  rw [nodes_cons hxy, nodes_cons hyx] at he
  exact (List.cons.inj he).1.symm

/-- Of two nodes of a list one comes after the other. -/
theorem mem_nodes_total (hx : y ∈ nodes nxt nil x) (hz : z ∈ nodes nxt nil x) :
    z ∈ nodes nxt nil y ∨ y ∈ nodes nxt nil z := by
  rcases List.suffix_or_suffix_of_suffix (nodes_suffix hx) (nodes_suffix hz) with h | h
  · exact Or.inr (h.subset (mem_nodes_self hx))
  · exact Or.inl (h.subset (mem_nodes_self hz))

theorem mem_nodes_next (h : y ∈ nodes nxt nil x) (hn : nxt y ≠ nil) : nxt y ∈ nodes nxt nil x := by
  obtain ⟨l₁, l₂, he, hp⟩ := (path_of_mem h).split h
  cases l₂ with
  | nil => exact absurd hp.2.2 hn
  | cons w l₂ =>
    rw [he, hp.2.2.1]
    simp

/-- A node after `x` is `x` or comes after its successor. -/
theorem mem_nodes_cases (h : y ∈ nodes nxt nil x) : y = x ∨ y ∈ nodes nxt nil (nxt x) := by
  have hx : x ∈ nodes nxt nil x := by
    have hp := path_of_mem h
    rcases hl : nodes nxt nil x with _ | ⟨w, l⟩
    · rw [hl] at h
      cases h
    · rw [hl] at hp
      rw [hp.1]
      exact List.mem_cons_self
  rw [nodes_cons hx] at h
  exact List.mem_cons.mp h

/-- Nothing comes after the last node. -/
theorem eq_of_last (h : y ∈ nodes nxt nil x) (hx : nxt x = nil) : y = x := by
  refine (mem_nodes_cases h).resolve_right fun h' => ?_
  rw [hx, nodes_nil] at h'
  cases h'

/-- The last node comes after every node. -/
theorem mem_nodes_last (hx : y ∈ nodes nxt nil x) (hz : z ∈ nodes nxt nil x) (hlast : nxt z = nil) :
    z ∈ nodes nxt nil y := by
  rcases mem_nodes_total hx hz with h | h
  · exact h
  · rw [eq_of_last h hlast]
    exact mem_nodes_self hz

/-- A node is put after the last one. -/
theorem nodes_append {n : α} (hz : z ∈ nodes nxt nil x) (hlast : nxt z = nil)
    (hn : n ∉ nodes nxt nil x) (hnil : n ≠ nil) (hz' : nxt' z = n) (hn' : nxt' n = nil)
    (he : ∀ y ∈ nodes nxt nil x, y ≠ z → nxt' y = nxt y) :
    nodes nxt' nil x = nodes nxt nil x ++ [n] :=
  ((path_of_mem hz).append hz hlast hn hnil hz' hn' he).nodes_eq

theorem nodes_congr (h : Path nxt nil x (nodes nxt nil x))
    (he : ∀ y ∈ nodes nxt nil x, nxt' y = nxt y) : nodes nxt' nil x = nodes nxt nil x :=
  (h.congr he).nodes_eq

end nodes

end Concur
