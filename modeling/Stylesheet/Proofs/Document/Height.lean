import Mathlib.Data.List.MinMax
import Mathlib.Order.Bounds.Basic
import Mathlib.Order.Nat
import Stylesheet.Proofs.Document.Growth

namespace Stylesheet.Document.Node

variable {d : Document} {n m : d.Node} {k : Nat}

/-- The links from the lowest node below `n` up to `n`. -/
def height (n : d.Node) : Nat :=
  (n.children.attach.map fun c => height c.val + 1).foldr max 0
termination_by d.size - n.val
decreasing_by
  have := lt_of_mem_children c.property
  have := c.val.isLt
  omega

theorem height_eq (n : d.Node) : n.height = (n.children.map fun c => c.height + 1).foldr max 0 := by
  rw [height, List.map_subtype (g := fun c => c.height + 1) (fun _ _ => rfl), List.unattach_attach]

theorem foldr_max_mem (l : List Nat) : l.foldr max 0 = 0 ∨ l.foldr max 0 ∈ l := by
  induction l with
  | nil => exact .inl rfl
  | cons a l ih =>
    rw [List.foldr_cons]
    rcases max_choice a (l.foldr max 0) with h | h
    · rw [h]
      exact .inr List.mem_cons_self
    · rw [h]
      exact ih.imp_right (List.mem_cons_of_mem a)

theorem height_lt {c : d.Node} (h : c ∈ n.children) : c.height < n.height := by
  rw [height_eq n]
  exact List.le_max_of_le (List.mem_map_of_mem (f := fun c => c.height + 1) h) (Nat.le_refl _)

theorem climb_of_parent (h : n.parent? = some m) (k : Nat) : n.climb (k + 1) = m.climb k := by
  rw [climb, Function.iterate_succ_apply, Option.bind_some, h, climb]

theorem climb_succ_eq (n : d.Node) (k : Nat) : n.climb (k + 1) = (n.climb k).bind parent? :=
  Function.iterate_succ_apply' ..

theorem climb_succ_eq_some : n.climb (k + 1) = some m ↔ ∃ c ∈ m.children, n.climb k = some c := by
  rw [climb_succ_eq, Option.bind_eq_some_iff]
  simp only [mem_children, and_comm]

theorem le_height (h : m.climb k = some n) : k ≤ n.height := by
  induction k generalizing n with
  | zero => exact Nat.zero_le _
  | succ k ih =>
    obtain ⟨c, hc, h⟩ := climb_succ_eq_some.1 h
    exact Nat.lt_of_le_of_lt (ih h) (height_lt hc)

theorem exists_climb_height (n : d.Node) : ∃ m : d.Node, m.climb n.height = some n := by
  induction hk : d.size - n.val using Nat.strongRecOn generalizing n with
  | ind k ih =>
    rcases foldr_max_mem (n.children.map fun c => c.height + 1) with h | h
    · rw [height_eq, h]
      exact ⟨n, rfl⟩
    · obtain ⟨c, hc, h⟩ := List.mem_map.1 h
      have := lt_of_mem_children hc
      have := c.isLt
      obtain ⟨m, hm⟩ := ih _ (by omega) c rfl
      rw [height_eq, ← h]
      exact ⟨m, climb_succ_eq_some.2 ⟨c, hc, hm⟩⟩

/-- The height is the greatest number of links by which a node is below `n`. -/
theorem isGreatest_height (n : d.Node) :
    IsGreatest {k | ∃ m : d.Node, m.climb k = some n} n.height :=
  ⟨n.exists_climb_height, fun _ ⟨_, hm⟩ => le_height hm⟩

theorem length_ancestors_of_climb (h : n.climb k = some m) :
    n.ancestors.length = m.ancestors.length + k := by
  induction k generalizing m with
  | zero => rw [Option.some.inj h]; rfl
  | succ k ih =>
    obtain ⟨c, hc, h⟩ := climb_succ_eq_some.1 h
    rw [ih h, ancestors_of_parent (mem_children.1 hc), List.length_cons]
    omega

theorem climb_inj {j : Nat} (hj : n.climb j = some m) (hk : n.climb k = some m) : j = k := by
  have := length_ancestors_of_climb hj
  have := length_ancestors_of_climb hk
  omega

theorem height_lt_size (n : d.Node) : n.height < d.size := by
  obtain ⟨m, hm⟩ := n.exists_climb_height
  have above := length_ancestors_of_climb hm
  have := m.length_ancestors_le
  have := m.isLt
  omega

end Stylesheet.Document.Node
