import BranchBound.Scalar.Basic

/-!
# The frontier

Open nodes, taken up in the order of their priority, least first; among equal priorities the one
that was pushed first. Entries are kept in the order in which they were pushed, and the next one is
found by a scan.
-/

namespace BranchBound

/-- An open node. -/
structure Entry (α : Type) where
  node : Nat
  /-- The least priority comes first. -/
  priority : α
  /-- How many entries were pushed before. -/
  serial : Nat
  /-- Bound inherited from the parent. -/
  bound : α

/-- Open nodes with counts of what was ever added and taken. -/
structure Frontier (α : Type) where
  entries : List (Entry α)
  added : Nat
  popped : Nat

namespace Entry

variable {α : Type} [Scalar α]

/-- Whether an entry comes before another: by priority, then by serial number. -/
def before (a b : Entry α) : Bool :=
  match Scalar.totalCompare a.priority b.priority with
  | .lt => true
  | .eq => a.serial < b.serial
  | .gt => false

end Entry

namespace Frontier

variable {α : Type}

/-- Nothing is open. -/
def empty : Frontier α := ⟨[], 0, 0⟩

/-- Number of open nodes. -/
def size (f : Frontier α) : Nat := f.entries.length

/-- Adds a node. -/
def push (f : Frontier α) (node : Nat) (priority bound : α) : Frontier α where
  entries := f.entries ++ [⟨node, priority, f.added, bound⟩]
  added := f.added + 1
  popped := f.popped

/-! ## Taking nodes out -/

variable [Scalar α]

/-- The entry that comes before all others. -/
def first (e : Entry α) (rest : List (Entry α)) : Entry α :=
  rest.foldl (fun best e => if e.before best then e else best) e

/-- Takes out the entry that comes before all others. -/
def pop? (f : Frontier α) : Option (Entry α × Frontier α) :=
  match f.entries with
  | [] => none
  | e :: rest =>
    let next := first e rest
    some (next, { f with entries := f.entries.filter (·.serial ≠ next.serial)
                         popped := f.popped + 1 })

/-- Largest inherited bound of an open node. -/
def bestBound (f : Frontier α) : α :=
  f.entries.foldl (fun best e => Scalar.maxNum best e.bound) (-Scalar.infinity)

/-- Nothing can be taken exactly where nothing is open. -/
theorem pop?_eq_none_iff {f : Frontier α} : f.pop? = none ↔ f.entries = [] := by
  unfold pop?
  cases f.entries with
  | nil => simp
  | cons e rest => simp

/-- The entry that comes first is one of the entries. -/
theorem first_mem (e : Entry α) (rest : List (Entry α)) : first e rest ∈ e :: rest := by
  unfold first
  induction rest generalizing e with
  | nil => simp
  | cons d rest ih =>
    rw [List.foldl_cons]
    split
    · exact List.mem_cons_of_mem e (ih d)
    · rcases List.mem_cons.mp (ih e) with h | h
      · rw [h]
        exact List.mem_cons_self
      · exact List.mem_cons_of_mem e (List.mem_cons_of_mem d h)

/-- What is taken was open, and only its serial number is gone. -/
theorem pop?_eq_some {f g : Frontier α} {e : Entry α} (h : f.pop? = some (e, g)) :
    e ∈ f.entries ∧ g.entries = f.entries.filter (·.serial ≠ e.serial) ∧
      g.added = f.added ∧ g.popped = f.popped + 1 := by
  unfold pop? at h
  split at h
  · cases h
  · rename_i d rest hentries
    cases h
    exact ⟨hentries ▸ first_mem d rest, rfl, rfl, rfl⟩

end Frontier

end BranchBound
