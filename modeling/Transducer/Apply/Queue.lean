/-!
Priority queues as leftist heaps. `key` gives the order in which entries leave.
-/

namespace Transducer

/-- A heap; each node keeps the length of its right spine. -/
inductive Heap (α : Type) where
  | empty
  | node (spine : Nat) (top : α) (left right : Heap α)
  deriving Repr

namespace Heap

variable {α : Type}

def spine : Heap α → Nat
  | empty => 0
  | node n _ _ _ => n

/-- The entries in no particular order. -/
def toList : Heap α → List α
  | empty => []
  | node _ a l r => a :: (l.toList ++ r.toList)

/-- A node with the longer of two spines on its left. -/
def make (top : α) (l r : Heap α) : Heap α :=
  if r.spine ≤ l.spine then node (r.spine + 1) top l r else node (l.spine + 1) top r l

/-- Merges a node into a heap, given how its right part merges. -/
def mergeNode (before : α → α → Bool) (spine : Nat) (top : α) (left right : Heap α)
    (mergeRight : Heap α → Heap α) : Heap α → Heap α
  | empty => node spine top left right
  | node n a l r =>
    if before top a then make top left (mergeRight (node n a l r))
    else make a l (mergeNode before spine top left right mergeRight r)

/-- All entries of two heaps. Of two tops, the first stays unless it has to come later. -/
def merge (before : α → α → Bool) : Heap α → Heap α → Heap α
  | empty => id
  | node n a l r => mergeNode before n a l r (merge before r)

def insert (before : α → α → Bool) (a : α) (h : Heap α) : Heap α :=
  merge before (node 1 a empty empty) h

/-- The entry that leaves next, and the heap without it. -/
def pop? (before : α → α → Bool) : Heap α → Option (α × Heap α)
  | empty => none
  | node _ a l r => some (a, merge before l r)

end Heap

end Transducer
