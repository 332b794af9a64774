import F7ly.Mem.Buddy
import F7ly.Lib.Interval

/-!
# What the buddy tree stands for

The allocator's array read as a tree is a partition of an interval of pages.
`blocks` lists the allocated blocks of such a tree and `Wf` is what the walks
of `Mem/Buddy.lean` maintain about it: an unused or used block has nothing
below it, any other node summarises its two halves, and the leaves beyond the
managed pages are full. `allocT` and `freeT` are the two operations in these
terms. They have no index arithmetic and no fuel, and a request that cannot
be met leaves no trace because it produces no tree at all.

`h` is the height of a tree and `off` the first page below it.
-/

namespace F7ly.Mem

open F7ly.HeapTree
open BuddySystem (summarize)

abbrev BTree := PTree NodeState

namespace BTree

/-- The allocated blocks below a node, each its first page and its length. -/
def blocks : Nat → Nat → BTree → List (Nat × Nat)
  | h, off, .leaf s => if s = .used then [(off, 2 ^ h)] else []
  | h, off, .node s l r =>
      match s with
      | .used => [(off, 2 ^ h)]
      | .unused => []
      | .split | .full =>
          blocks (h - 1) off l ++ blocks (h - 1) (off + 2 ^ (h - 1)) r

/-- The shape of a tree over `N` managed pages. -/
inductive Wf (N : Nat) : Nat → Nat → BTree → Prop
  | leaf {off : Nat} {s : NodeState}
      (inside : off < N → s = .unused ∨ s = .used)
      (beyond : N ≤ off → s = .full) : Wf N 0 off (.leaf s)
  | node {h off : Nat} {s : NodeState} {l r : BTree}
      (left : Wf N h off l) (right : Wf N h (off + 2 ^ h) r)
      (whole : s = .unused ∨ s = .used → l.root = .unused ∧ r.root = .unused)
      (parts : s = .split ∨ s = .full → s = summarize l.root r.root) :
      Wf N (h + 1) off (.node s l r)

/-- Take a block of `pages` pages, the first that fits from the left: where
it starts and the tree after. -/
def allocT (pages : Nat) : Nat → Nat → BTree → Option (Nat × BTree)
  | h, off, .leaf s =>
      if 2 ^ h = pages ∧ s = .unused then some (off, .leaf .used) else none
  | h, off, .node s l r =>
      if 2 ^ h = pages then
        if s = .unused then some (off, .node .used l r) else none
      else if pages < 2 ^ h ∧ (s = .unused ∨ s = .split) then
        match allocT pages (h - 1) off l with
        | some (o, l') => some (o, .node (summarize l'.root r.root) l' r)
        | none =>
            match allocT pages (h - 1) (off + 2 ^ (h - 1)) r with
            | some (o, r') => some (o, .node (summarize l.root r'.root) l r')
            | none => none
      else none

/-- Give back the block that starts at `target`. -/
def freeT (target : Nat) : Nat → Nat → BTree → Option BTree
  | _, off, .leaf s =>
      if s = .used ∧ off = target then some (.leaf .unused) else none
  | h, off, .node s l r =>
      match s with
      | .used => if off = target then some (.node .unused l r) else none
      | .unused => none
      | .split | .full =>
          if target < off + 2 ^ (h - 1) then
            match freeT target (h - 1) off l with
            | some l' => some (.node (summarize l'.root r.root) l' r)
            | none => none
          else
            match freeT target (h - 1) (off + 2 ^ (h - 1)) r with
            | some r' => some (.node (summarize l.root r'.root) l r')
            | none => none

/-- The length of the longest block that could be taken. -/
def maxFree : Nat → BTree → Nat
  | h, .leaf s => if s = .unused then 2 ^ h else 0
  | h, .node s l r =>
      match s with
      | .unused => 2 ^ h
      | .used | .full => 0
      | .split => max (maxFree (h - 1) l) (maxFree (h - 1) r)

end BTree

end F7ly.Mem
