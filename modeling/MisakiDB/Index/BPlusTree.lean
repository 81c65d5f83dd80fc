import MisakiDB.Index.IndexFileManager
/-!
# `BPlusTree`

The tree's functions as programs in the index pool, in the order of
`b_plus_tree.cpp`, after the page functions that adopt children (they fetch
other pages). A page pointer is the page's id; `N` says which instance of a
template over the page class runs. The walk down and the two walks up take a
bound on the number of levels, which the caller of the tree picks.
-/

namespace MisakiDB

/-- The page class a template is instantiated with. -/
inductive NodeType
  | LeafPage
  | InternalPage
  deriving DecidableEq, Repr

section
variable {K V : Type} [LinearOrder K]

/-! ## Moving entries between pages -/

namespace LeafPage

def moveHalfTo (this recipient : PageIDType) : IndexProg K V Unit := do
  let p ← getLeaf this
  let half := (p.getSize + 1) / 2
  setLeaf recipient ((← getLeaf recipient).copyNFrom (p.array.drop half))
  setLeaf this (p.setSize half)

def moveAllTo (this recipient : PageIDType) : IndexProg K V Unit := do
  let p ← getLeaf this
  setLeaf recipient ((← getLeaf recipient).copyNFrom p.array)
  setLeaf this (p.setSize 0)
  setLeaf recipient { (← getLeaf recipient) with nextPageID := p.nextPageID }

def moveFirstToEndOf (this recipient : PageIDType) : IndexProg K V Unit := do
  let p ← getLeaf this
  let first ← require p.array.head?
  setLeaf recipient ((← getLeaf recipient).copyLastFrom first)
  setLeaf this { p with array := p.array.tail }

def moveLastToFrontOf (this recipient : PageIDType) : IndexProg K V Unit := do
  let p ← getLeaf this
  let last ← require p.array.getLast?
  setLeaf recipient ((← getLeaf recipient).copyFirstFrom last)
  setLeaf this { p with array := p.array.dropLast }

end LeafPage

namespace InternalPage

/-- Make `this` the parent of a child, which stays pinned. -/
def adopt (this child : PageIDType) : IndexProg K V Unit := do
  fetchPage child
  setParentPageID child (some (← getInternal this).pageID)

/-- The loop unpins by the id in the entry, the other two by the child's own. -/
def copyNFrom (this : PageIDType) : List (K × PageIDType) → IndexProg K V Unit
  | [] => pure ()
  | e :: items => do
    setInternal this ((← getInternal this).append e)
    adopt this e.2
    unpinPage e.2 true
    copyNFrom this items

def copyLastFrom (this : PageIDType) (pair : K × PageIDType) : IndexProg K V Unit := do
  setInternal this ((← getInternal this).append pair)
  adopt this pair.2
  unpinPage (← getNode pair.2).pageID true

def copyFirstFrom (this : PageIDType) (pair : K × PageIDType) : IndexProg K V Unit := do
  setInternal this ((← getInternal this).prepend pair)
  adopt this pair.2
  unpinPage (← getNode pair.2).pageID true

def moveHalfTo (this recipient : PageIDType) : IndexProg K V Unit := do
  let p ← getInternal this
  let half := (p.getSize + 1) / 2
  copyNFrom recipient (p.array.drop half)
  setInternal this (p.setSize half)

def moveAllTo (this recipient : PageIDType) (middleKey : K) : IndexProg K V Unit := do
  let p ← require ((← getInternal this).setKeyAt 0 middleKey)
  setInternal this p
  copyNFrom recipient p.array
  setInternal this (p.setSize 0)

def moveFirstToEndOf (this recipient : PageIDType) (middleKey : K) : IndexProg K V Unit := do
  let p ← getInternal this
  let first ← require p.array.head?
  copyLastFrom recipient first
  let r ← getInternal recipient
  setInternal recipient (← require (r.setKeyAt (r.getSize - 1) middleKey))
  setInternal this { p with array := p.array.tail }

def moveLastToFrontOf (this recipient : PageIDType) (middleKey : K) : IndexProg K V Unit := do
  setInternal recipient (← require ((← getInternal recipient).setKeyAt 0 middleKey))
  let p ← getInternal this
  let last ← require p.array.getLast?
  copyFirstFrom recipient last
  setInternal this { p with array := p.array.dropLast }

def removeAndReturnOnlyChild (this : PageIDType) : IndexProg K V PageIDType := do
  let p ← getInternal this
  let val ← require (p.valueAt 0)
  setInternal this (p.setSize (p.getSize - 1))
  pure val

end InternalPage

namespace BPlusTree

/-! ## Search -/

section
variable {L I : Type}

def updateRootPageID : FileProg L I Unit := do
  fetchPage 0
  let header ← getHeader
  setData 0 (.header { header with rootPageID := (← getMember).rootPageID })
  unpinPage 0 true

def setRootPageID (root : Option PageIDType) : FileProg L I Unit := do
  setMember { (← getMember) with rootPageID := root }

variable {K : Type} [TreePage L] [TreePage I] [Branching K I]

/-- The loop of `findLeafPage`, from a page that is pinned. -/
def descend (key : K) (leftMost : Bool) : Nat → PageIDType → FileProg L I PageIDType
  | 0, _ => Prog.fail
  | fuel + 1, page => do
    let n ← getNode page
    if n.isLeafPage then
      pure page
    else
      let p ← getInternal page
      let childID ← require (if leftMost then Branching.valueAt p 0 else Branching.lookup p key)
      unpinPage n.pageID false
      fetchPage childID
      descend key leftMost fuel childID

def findLeafPage (fuel : Nat) (key : K) (leftMost : Bool) : FileProg L I PageIDType := do
  match (← getMember).rootPageID with
  | none => Prog.fail
  | some root => do
    fetchPage root
    descend key leftMost fuel root

end

def getValue (fuel : Nat) (key : K) : IndexProg K V (Option V) := do
  if (← getMember).rootPageID = INVALID_PAGE_ID then
    pure none
  else
    let leaf ← findLeafPage fuel key false
    let p ← getLeaf leaf
    let val := p.lookup key
    unpinPage p.pageID false
    pure val

/-! ## Insertion -/

def startNewTree (key : K) (value : V) : IndexProg K V Unit := do
  let newRootPgID ← newIndexPage
  setLeaf newRootPgID ((LeafPage.init newRootPgID INVALID_PAGE_ID (← getMember).leafMaxSize).insert key value)
  unpinPage newRootPgID true
  setRootPageID (some newRootPgID)
  updateRootPageID

def split (N : NodeType) (node : PageIDType) : IndexProg K V PageIDType := do
  let n ← getNode node
  if n.size < n.maxSize then
    Prog.fail
  else
    let newPageID ← newIndexPage
    match N with
    | .LeafPage => do
      setLeaf newPageID (LeafPage.init newPageID n.parentPageID (← getMember).leafMaxSize)
      LeafPage.moveHalfTo node newPageID
    | .InternalPage => do
      setInternal newPageID (InternalPage.init newPageID n.parentPageID (← getMember).internalMaxSize)
      InternalPage.moveHalfTo node newPageID
    pure newPageID

def insertIntoParent [Inhabited K] : Nat → PageIDType → K → PageIDType → IndexProg K V Unit
  | 0, _, _, _ => Prog.fail
  | fuel + 1, oldNode, key, newNode => do
    let old ← getNode oldNode
    let oldValue := old.pageID
    let newValue := (← getNode newNode).pageID
    match old.parentPageID with
    | none => do
      let newRootPgID ← newIndexPage
      let newRoot := InternalPage.init newRootPgID INVALID_PAGE_ID (← getMember).internalMaxSize
      setInternal newRootPgID (← require (newRoot.populateNewRoot oldValue key newValue))
      setParentPageID oldNode (some newRootPgID)
      setParentPageID newNode (some newRootPgID)
      setRootPageID (some newRootPgID)
      updateRootPageID
      unpinPage newRootPgID true
    | some parent => do
      fetchPage parent
      let p ← require ((← getInternal parent).insertNodeAfter oldValue key newValue)
      setInternal parent p
      if p.maxSize ≤ p.getSize then
        let newInternal ← split .InternalPage parent
        let q ← getInternal newInternal
        insertIntoParent fuel parent (← require (q.keyAt 0)) newInternal
        unpinPage (← getInternal newInternal).pageID true
      unpinPage (← getInternal parent).pageID true

def insertIntoLeaf [Inhabited K] (fuel : Nat) (key : K) (value : V) : IndexProg K V Bool := do
  let leaf ← findLeafPage fuel key false
  let p ← getLeaf leaf
  if (p.lookup key).isSome then
    pure false
  else
    setLeaf leaf (p.insert key value)
    if p.maxSize ≤ (p.insert key value).getSize then
      let newLeaf ← split .LeafPage leaf
      let p ← getLeaf leaf
      let q ← getLeaf newLeaf
      setLeaf newLeaf { q with nextPageID := p.nextPageID }
      setLeaf leaf { p with nextPageID := some q.pageID }
      insertIntoParent fuel leaf (← require (q.keyAt 0)) newLeaf
      unpinPage (← getLeaf newLeaf).pageID true
    unpinPage (← getLeaf leaf).pageID true
    pure true

def insert [Inhabited K] (fuel : Nat) (key : K) (value : V) : IndexProg K V Bool := do
  if (← getMember).rootPageID = INVALID_PAGE_ID then
    startNewTree key value
    pure true
  else
    insertIntoLeaf fuel key value

/-! ## Removal -/

def adjustRoot (oldRootNode : PageIDType) : IndexProg K V Bool := do
  let n ← getNode oldRootNode
  if !n.isRootPage then
    Prog.fail
  else if n.isLeafPage && n.size = 0 then
    setRootPageID INVALID_PAGE_ID
    updateRootPageID
    pure true
  else if !n.isLeafPage && n.size = 1 then
    let newRootPageID ← InternalPage.removeAndReturnOnlyChild oldRootNode
    setRootPageID (some newRootPageID)
    updateRootPageID
    fetchPage newRootPageID
    setParentPageID newRootPageID INVALID_PAGE_ID
    unpinPage (← getNode newRootPageID).pageID true
    pure true
  else
    pure false

/-- Moves all entries of the right one of two siblings to the left one. Returns
what the call leaves in `neighborNode` and `node`, and whether the parent should
be deleted; `coalesceOrRedistribute` is the call for the parent. -/
def coalesce (coalesceOrRedistribute : PageIDType → IndexProg K V Bool) (N : NodeType)
    (neighborNode node parent : PageIDType) (index : Nat) : IndexProg K V (PageIDType × PageIDType × Bool) := do
  let p ← getInternal parent
  let swap := (← require (p.valueAt index)) = (← getNode neighborNode).pageID
  -- after the swap `node` is the successor of `neighborNode`
  let (neighborNode, node) := if swap then (node, neighborNode) else (neighborNode, node)
  match N with
  | .LeafPage => LeafPage.moveAllTo node neighborNode
  | .InternalPage => InternalPage.moveAllTo node neighborNode (← require (p.keyAt index))
  let p ← require ((← getInternal parent).remove index)
  setInternal parent p
  if p.getSize < p.getMinSize then
    pure (neighborNode, node, ← coalesceOrRedistribute parent)
  else
    pure (neighborNode, node, false)

/-- The parent is fetched and not unpinned here. -/
def redistribute (N : NodeType) (neighborNode node : PageIDType) (index : Nat) : IndexProg K V Unit := do
  let n ← getNode node
  let parent ← require n.parentPageID
  fetchPage parent
  let p ← getInternal parent
  if (← require (p.valueAt index)) = n.pageID then
    match N with
    | .LeafPage => do
      LeafPage.moveLastToFrontOf neighborNode node
      setInternal parent (← require (p.setKeyAt index (← require ((← getLeaf node).keyAt 0))))
    | .InternalPage => do
      let neighbor ← getInternal neighborNode
      let lastKey ← require (neighbor.keyAt (neighbor.getSize - 1))
      InternalPage.moveLastToFrontOf neighborNode node (← require (p.keyAt index))
      setInternal parent (← require (p.setKeyAt index lastKey))
  else
    match N with
    | .LeafPage => do
      LeafPage.moveFirstToEndOf neighborNode node
      setInternal parent (← require (p.setKeyAt index (← require ((← getLeaf neighborNode).keyAt 0))))
    | .InternalPage => do
      let firstKey ← require ((← getInternal neighborNode).keyAt 1)
      InternalPage.moveFirstToEndOf neighborNode node (← require (p.keyAt index))
      setInternal parent (← require (p.setKeyAt index firstKey))

def coalesceOrRedistribute : Nat → NodeType → PageIDType → IndexProg K V Bool
  | 0, _, _ => Prog.fail
  | fuel + 1, N, node => do
    let n ← getNode node
    match n.parentPageID with
    | none =>
      if n.isLeafPage && n.size = 0 then
        let _ ← adjustRoot node
        pure true
      else if !n.isLeafPage && n.size = 1 then
        let _ ← adjustRoot node
        pure true
      else
        pure false
    | some parent => do
      fetchPage parent
      let p ← getInternal parent
      let thisIndex ← require (p.valueIndex n.pageID)
      let (siblingIndex, middleIndex) ← require
        (if thisIndex + 1 = p.getSize then
          -- an index of -1 would break the assertion of valueAt
          if thisIndex = 0 then none else some (thisIndex - 1, thisIndex)
        else some (thisIndex + 1, thisIndex + 1))
      let sibling ← require (p.valueAt siblingIndex)
      fetchPage sibling
      if (← getNode sibling).size + n.size < n.maxSize then
        let (neighborNode, node, needDelete) ← coalesce (coalesceOrRedistribute fuel .InternalPage) N sibling node parent
          middleIndex
        let parentID := (← getInternal parent).pageID
        unpinPage parentID true
        if needDelete then
          let _ ← deleteIndexPage parentID
        if neighborNode ≠ sibling then
          let nodeID := (← getNode node).pageID
          unpinPage nodeID true
          let _ ← deleteIndexPage nodeID
          pure false
        else
          unpinPage (← getNode neighborNode).pageID true
          pure true
      else
        redistribute N sibling node middleIndex
        unpinPage (← getNode sibling).pageID true
        unpinPage (← getInternal parent).pageID true
        pure false

def remove (fuel : Nat) (key : K) : IndexProg K V (Option V) := do
  if (← getMember).rootPageID = INVALID_PAGE_ID then
    pure none
  else
    let leaf ← findLeafPage fuel key false
    match (← getLeaf leaf).removeAndDeleteRecord key with
    | (none, p) => do
      unpinPage p.pageID false
      pure none
    | (some removedValue, p) => do
      setLeaf leaf p
      let needDelete ← if p.getSize < p.getMinSize then coalesceOrRedistribute fuel .LeafPage leaf else pure false
      let leafID := (← getLeaf leaf).pageID
      unpinPage leafID true
      if needDelete then
        let _ ← deleteIndexPage leafID
      pure (some removedValue)

/-! ## Opening a file -/

/-- The constructor: the root is the one in the file's header. -/
def construct (leafMaxSize internalMaxSize : Nat) : IndexProg K V Unit := do
  fetchPage 0
  let header ← getHeader
  setMember { rootPageID := header.rootPageID, leafMaxSize, internalMaxSize }
  unpinPage 0 false

/-- The index file of a new database, seen by a tree of the given capacities. -/
def create (leafMaxSize internalMaxSize : Nat) : IndexStore K V where
  page k := if k = 0 then some (.header IndexFileHeader.init) else none
  pins _ := 0
  latch _ := .reading 0
  member := { rootPageID := INVALID_PAGE_ID, leafMaxSize, internalMaxSize }

end BPlusTree
end
end MisakiDB
