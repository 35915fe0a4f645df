import SudoOS.Lib.Circle

/-!
# Intrusive lists

The operations of `lib/list.h` on the links of all nodes in memory, write by write. What they are
for is told on sequences: each list is named by its sentinel, and `Step` says what an operation on a
node makes of the sequences.
-/

namespace SudoOS

open Circle

variable {N : Type*} [DecidableEq N]

/-! ## The code -/

def setNext (m : Links N) (node next : N) : Links N :=
  { m with next := Function.update m.next node next }

def setPrev (m : Links N) (node prev : N) : Links N :=
  { m with prev := Function.update m.prev node prev }

def listInit (m : Links N) (node : N) : Links N := setPrev (setNext m node node) node node

/-- `__list_add`. -/
def listAdd (m : Links N) (newNode prev next : N) : Links N :=
  let m := setPrev m next newNode
  let m := setNext m newNode next
  let m := setPrev m newNode prev
  setNext m prev newNode

def listAddAfter (m : Links N) (newNode head : N) : Links N :=
  listAdd m newNode head (m.next head)

def listAddBefore (m : Links N) (newNode head : N) : Links N :=
  listAdd m newNode (m.prev head) head

def listDel (m : Links N) (node : N) : Links N :=
  let m := setPrev m (m.next node) (m.prev node)
  let m := setNext m (m.prev node) (m.next node)
  let m := setNext m node node
  setPrev m node node

/-- What `free_proc` does with the two nodes of a process. -/
def freeProcNode (null : N) (m : Links N) (node : N) : Links N :=
  if m.prev node ≠ null ∧ m.next node ≠ null then listDel m node else m

inductive ListOp (N : Type*)
  | init (node : N)
  | addAfter (newNode head : N)
  | addBefore (newNode head : N)
  | del (node : N)

def listStep (m : Links N) : ListOp N → Links N
  | .init node => listInit m node
  | .addAfter newNode head => listAddAfter m newNode head
  | .addBefore newNode head => listAddBefore m newNode head
  | .del node => listDel m node

/-! ## Sequences -/

/-- The sequences by their sentinels, and the nodes that have been removed and not added since. -/
structure Lists (N : Type*) where
  seq : N → Option (List N)
  removed : Set N

namespace Lists

/-- The node is the sentinel or an element of a list. -/
def Used (s : Lists N) (n : N) : Prop := ∃ h xs, s.seq h = some xs ∧ n ∈ h :: xs

def insertAfter (p n : N) : List N → List N
  | [] => []
  | x :: xs => if x = p then x :: n :: xs else x :: insertAfter p n xs

def insertBefore (p n : N) : List N → List N
  | [] => []
  | x :: xs => if x = p then n :: x :: xs else x :: insertBefore p n xs

/-- Behind the sentinel is the front. -/
def addAfter (h p n : N) (xs : List N) : List N :=
  if p = h then n :: xs else insertAfter p n xs

/-- In front of the sentinel is the end. -/
def addBefore (h p n : N) (xs : List N) : List N :=
  if p = h then xs ++ [n] else insertBefore p n xs

/-- One list changes. -/
def put (s : Lists N) (h : N) (xs : List N) (removed : Set N) : Lists N :=
  ⟨Function.update s.seq h (some xs), removed⟩

inductive Step (s : Lists N) : ListOp N → Lists N → Prop
  | init {n : N} (hn : ∀ h xs, s.seq h = some xs → n ∉ xs) :
      Step s (.init n) (s.put n [] (s.removed \ {n}))
  | addAfter {h n p : N} {xs : List N} (hs : s.seq h = some xs) (hp : p ∈ h :: xs)
      (hn : ¬ s.Used n) : Step s (.addAfter n p) (s.put h (addAfter h p n xs) (s.removed \ {n}))
  | addBefore {h n p : N} {xs : List N} (hs : s.seq h = some xs) (hp : p ∈ h :: xs)
      (hn : ¬ s.Used n) : Step s (.addBefore n p) (s.put h (addBefore h p n xs) (s.removed \ {n}))
  | del {h p : N} {xs : List N} (hs : s.seq h = some xs) (hp : p ∈ xs) :
      Step s (.del p) (s.put h (xs.erase p) (insert p s.removed))
  | delAgain {p : N} (hp : p ∈ s.removed) : Step s (.del p) s

inductive Steps : Lists N → List (ListOp N) → Lists N → Prop
  | nil (s : Lists N) : Steps s [] s
  | cons {s t u : Lists N} {op : ListOp N} {ops : List (ListOp N)} (h : Step s op t)
      (hs : Steps t ops u) : Steps s (op :: ops) u

end Lists

end SudoOS
