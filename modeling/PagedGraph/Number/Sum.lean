/-!
# Sums of natural numbers
-/

namespace PagedGraph

/-- The sum of some numbers. -/
def addUp (ns : List Nat) : Nat := ns.foldr (· + ·) 0

@[simp] theorem addUp_nil : addUp [] = 0 := rfl

@[simp] theorem addUp_cons (n : Nat) (ns : List Nat) : addUp (n :: ns) = n + addUp ns := rfl

@[simp] theorem addUp_append (ms ns : List Nat) : addUp (ms ++ ns) = addUp ms + addUp ns := by
  induction ms with
  | nil => simp
  | cons m ms ih => simp [ih, Nat.add_assoc]

theorem addUp_map_add {α : Type} (f g : α → Nat) (xs : List α) :
    addUp (xs.map fun x => f x + g x) = addUp (xs.map f) + addUp (xs.map g) := by
  induction xs with
  | nil => rfl
  | cons x xs ih =>
    simp only [List.map_cons, addUp_cons, ih]
    omega

theorem addUp_map_zero {α : Type} (xs : List α) : addUp (xs.map fun _ => 0) = 0 := by
  induction xs with
  | nil => rfl
  | cons x xs ih => rw [List.map_cons, addUp_cons, ih]

/-- Adding up a table row by row or column by column gives the same. -/
theorem addUp_comm {α β : Type} (count : α → β → Nat) (xs : List α) (ys : List β) :
    addUp (xs.map fun x => addUp (ys.map (count x))) =
      addUp (ys.map fun y => addUp (xs.map fun x => count x y)) := by
  induction xs with
  | nil => exact (addUp_map_zero ys).symm
  | cons x xs ih => simp only [List.map_cons, addUp_cons, ih, addUp_map_add]

theorem addUp_map_mul {α : Type} (f : α → Nat) (m : Nat) (xs : List α) :
    addUp (xs.map fun x => f x * m) = addUp (xs.map f) * m := by
  induction xs with
  | nil => rw [List.map_nil, List.map_nil, addUp_nil, Nat.zero_mul]
  | cons x xs ih => rw [List.map_cons, List.map_cons, addUp_cons, addUp_cons, ih, Nat.add_mul]

theorem addUp_map_le {α : Type} {f g : α → Nat} {xs : List α} (h : ∀ x ∈ xs, f x ≤ g x) :
    addUp (xs.map f) ≤ addUp (xs.map g) := by
  induction xs with
  | nil => exact Nat.le_refl _
  | cons x xs ih =>
    have hrest := ih fun y hy => h y (List.mem_cons_of_mem x hy)
    exact Nat.add_le_add (h x List.mem_cons_self) hrest

/-- Numbers up to a bound add up to no more than the bound for each of them. -/
theorem addUp_le_mul {ns : List Nat} {bound : Nat} (h : ∀ n ∈ ns, n ≤ bound) :
    addUp ns ≤ ns.length * bound := by
  induction ns with
  | nil => exact Nat.zero_le _
  | cons n ns ih =>
    have hrest := ih fun m hm => h m (List.mem_cons_of_mem n hm)
    rw [addUp_cons, List.length_cons, Nat.succ_mul, Nat.add_comm]
    exact Nat.add_le_add hrest (h n List.mem_cons_self)

/-- Numbers from a bound on add up to the bound for each of them at least. -/
theorem mul_le_addUp {ns : List Nat} {bound : Nat} (h : ∀ n ∈ ns, bound ≤ n) :
    ns.length * bound ≤ addUp ns := by
  induction ns with
  | nil => exact Nat.le_of_eq (Nat.zero_mul _)
  | cons n ns ih =>
    have hrest := ih fun m hm => h m (List.mem_cons_of_mem n hm)
    rw [addUp_cons, List.length_cons, Nat.succ_mul, Nat.add_comm]
    exact Nat.add_le_add (h n List.mem_cons_self) hrest

end PagedGraph
