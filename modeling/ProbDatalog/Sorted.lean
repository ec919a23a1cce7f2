/-!
# Finite sets as sorted lists

A finite set of an ordered type is the list of its members in ascending order without repetition,
so that equal sets are equal lists and their members are always visited in one order.

* `mem_insert`, `mem_ofList`, `mem_union`: the members of the sets that the operations make.
-/

namespace ProbDatalog.Sorted

variable {α : Type} [Ord α]

/-- Put a member into its place; one that is there already changes nothing. -/
def insert (x : α) : List α → List α
  | [] => [x]
  | y :: rest =>
    match compare x y with
    | .lt => x :: y :: rest
    | .eq => y :: rest
    | .gt => y :: insert x rest

/-- The members of two sets. -/
def union (s t : List α) : List α := t.foldl (fun s x => insert x s) s

/-- The set of the members of a list. -/
def ofList (l : List α) : List α := union [] l

variable [Std.LawfulEqOrd α]

theorem mem_insert {x y : α} {s : List α} : y ∈ insert x s ↔ y = x ∨ y ∈ s := by
  induction s with
  | nil => simp [insert]
  | cons z rest ih =>
    unfold insert
    split
    · simp
    next h =>
      rw [Std.LawfulEqOrd.eq_of_compare h]
      simp
    · grind

theorem mem_union {x : α} {s t : List α} : x ∈ union s t ↔ x ∈ s ∨ x ∈ t := by
  induction t generalizing s with
  | nil => simp [union]
  | cons y rest ih =>
    have h : union s (y :: rest) = union (insert y s) rest := rfl
    rw [h, ih, mem_insert, List.mem_cons]
    grind

theorem mem_ofList {x : α} {l : List α} : x ∈ ofList l ↔ x ∈ l := by
  simp [ofList, mem_union]

end ProbDatalog.Sorted
