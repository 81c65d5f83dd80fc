import MisakiDB.Index.ArrayPages
import MisakiDB.Index.Calls
/-!
# The tree on its arrays

The programs of `BPlusTree` that work on a page's entries once more, with the entries in
arrays; the file manager and the walk down are those of `IndexFileManager` and `BPlusTree`. A
program ends where an access would leave its page, where an assertion on an index breaks, and
where the source throws.
-/

namespace MisakiDB

abbrev ArrayProg (K V α : Type) := PageProg PageIDType (ArrayPage K V) BPlusTree α

abbrev ArrayStore (K V : Type) := PageStore PageIDType (ArrayPage K V) BPlusTree

namespace ArrayTree

open BPlusTree (setRootPageID updateRootPageID findLeafPage)

variable {K V : Type}

/-! ## Moving entries between pages -/

section
variable [LinearOrder K]

namespace BPlusTreeLeafPage

def moveHalfTo (this recipient : PageIDType) : ArrayProg K V Unit := do
  let p ← getLeaf this
  let half := (p.getSize + 1) / 2
  let items ← require (p.itemsFrom half (p.getSize - half))
  setLeaf recipient (← require ((← getLeaf recipient).copyNFrom items))
  setLeaf this (p.setSize half)

def moveAllTo (this recipient : PageIDType) : ArrayProg K V Unit := do
  let p ← getLeaf this
  let items ← require (p.itemsFrom 0 p.getSize)
  setLeaf recipient (← require ((← getLeaf recipient).copyNFrom items))
  setLeaf this (p.setSize 0)
  setLeaf recipient { (← getLeaf recipient) with nextPageID := p.nextPageID }

def moveFirstToEndOf (this recipient : PageIDType) : ArrayProg K V Unit := do
  let p ← getLeaf this
  let first ← require p.first
  setLeaf recipient (← require ((← getLeaf recipient).copyLastFrom first))
  setLeaf this (← require p.dropFirst)

def moveLastToFrontOf (this recipient : PageIDType) : ArrayProg K V Unit := do
  let p ← getLeaf this
  let last ← require p.last
  setLeaf recipient (← require ((← getLeaf recipient).copyFirstFrom last))
  setLeaf this (p.setSize (p.getSize - 1))

end BPlusTreeLeafPage

namespace BPlusTreeInternalPage

def adopt (this child : PageIDType) : ArrayProg K V Unit := do
  fetchPage child
  setParentPageID child (some (← getInternal this).pageID)

/-- The loop of `copyNFrom`, from index `i`. -/
def copyFrom (this : PageIDType) : List (K × PageIDType) → Nat → ArrayProg K V Unit
  | [], _ => pure ()
  | e :: items, i => do
    setInternal this (← require ((← getInternal this).setItem i e))
    adopt this e.2
    unpinPage e.2 true
    copyFrom this items (i + 1)

/-- The size grows first. -/
def copyNFrom (this : PageIDType) (items : List (K × PageIDType)) : ArrayProg K V Unit := do
  let p ← getInternal this
  setInternal this (p.setSize (p.getSize + items.length))
  copyFrom this items p.getSize

def copyLastFrom (this : PageIDType) (pair : K × PageIDType) : ArrayProg K V Unit := do
  let p ← require ((← getInternal this).append pair)
  setInternal this p
  let child ← require (p.valueAt (p.getSize - 1))
  adopt this child
  unpinPage (← getNode child).pageID true

def copyFirstFrom (this : PageIDType) (pair : K × PageIDType) : ArrayProg K V Unit := do
  let p ← require ((← getInternal this).prepend pair)
  setInternal this p
  let child ← require (p.valueAt 0)
  adopt this child
  unpinPage (← getNode child).pageID true

def moveHalfTo (this recipient : PageIDType) : ArrayProg K V Unit := do
  let p ← getInternal this
  let half := (p.getSize + 1) / 2
  copyNFrom recipient (← require (p.itemsFrom half (p.getSize - half)))
  setInternal this (p.setSize half)

def moveAllTo (this recipient : PageIDType) (middleKey : K) : ArrayProg K V Unit := do
  let p ← require ((← getInternal this).setKeyAt 0 middleKey)
  setInternal this p
  copyNFrom recipient (← require (p.itemsFrom 0 p.getSize))
  setInternal this (p.setSize 0)

def moveFirstToEndOf (this recipient : PageIDType) (middleKey : K) : ArrayProg K V Unit := do
  let p ← getInternal this
  let first ← require p.first
  copyLastFrom recipient first
  let r ← getInternal recipient
  setInternal recipient (← require (r.setKeyAt (r.getSize - 1) middleKey))
  setInternal this (← require p.dropFirst)

def moveLastToFrontOf (this recipient : PageIDType) (middleKey : K) : ArrayProg K V Unit := do
  setInternal recipient (← require ((← getInternal recipient).setKeyAt 0 middleKey))
  let p ← getInternal this
  let last ← require p.last
  copyFirstFrom recipient last
  setInternal this (p.setSize (p.getSize - 1))

def removeAndReturnOnlyChild (this : PageIDType) : ArrayProg K V PageIDType := do
  let p ← getInternal this
  let val ← require (p.valueAt 0)
  setInternal this (p.setSize (p.getSize - 1))
  pure val

end BPlusTreeInternalPage

/-! ## Search -/

def getValue (fuel : Nat) (key : K) : ArrayProg K V (Option V) := do
  if (← getMember).rootPageID = INVALID_PAGE_ID then
    pure none
  else
    let leaf ← findLeafPage fuel key false
    let p ← getLeaf leaf
    let val ← require (p.lookup key)
    unpinPage p.pageID false
    pure val

/-! ## Insertion -/

section Insertion
variable [Inhabited K] [Inhabited V]

def startNewTree (key : K) (value : V) : ArrayProg K V Unit := do
  let newRootPgID ← newIndexPage
  let root := BPlusTreeLeafPage.init newRootPgID INVALID_PAGE_ID (← getMember).leafMaxSize
  setLeaf newRootPgID (← require (root.insert key value))
  unpinPage newRootPgID true
  setRootPageID (some newRootPgID)
  updateRootPageID

def split (N : NodeType) (node : PageIDType) : ArrayProg K V PageIDType := do
  let n ← getNode node
  if n.size < n.maxSize then
    Prog.fail
  else
    let newPageID ← newIndexPage
    match N with
    | .LeafPage => do
      setLeaf newPageID (BPlusTreeLeafPage.init newPageID n.parentPageID (← getMember).leafMaxSize)
      BPlusTreeLeafPage.moveHalfTo node newPageID
    | .InternalPage => do
      setInternal newPageID (BPlusTreeInternalPage.init newPageID n.parentPageID (← getMember).internalMaxSize)
      BPlusTreeInternalPage.moveHalfTo node newPageID
    pure newPageID

def insertIntoParent : Nat → PageIDType → K → PageIDType → ArrayProg K V Unit
  | 0, _, _, _ => Prog.fail
  | fuel + 1, oldNode, key, newNode => do
    let old ← getNode oldNode
    let oldValue := old.pageID
    let newValue := (← getNode newNode).pageID
    match old.parentPageID with
    | none => do
      let newRootPgID ← newIndexPage
      let newRoot := BPlusTreeInternalPage.init newRootPgID INVALID_PAGE_ID (← getMember).internalMaxSize
      setInternal newRootPgID (← require (newRoot.populateNewRoot oldValue key newValue))
      setParentPageID oldNode (some newRootPgID)
      setParentPageID newNode (some newRootPgID)
      setRootPageID (some newRootPgID)
      updateRootPageID
      unpinPage newRootPgID true
    | some parent => do
      fetchPage parent
      let p ← require ((← getInternal parent).insertNodeAfter oldValue key newValue)
      setInternal parent p
      if p.maxSize ≤ p.getSize then
        let newInternal ← split .InternalPage parent
        let q ← getInternal newInternal
        insertIntoParent fuel parent (← require (q.keyAt 0)) newInternal
        unpinPage (← getInternal newInternal).pageID true
      unpinPage (← getInternal parent).pageID true

def insertIntoLeaf (fuel : Nat) (key : K) (value : V) : ArrayProg K V Bool := do
  let leaf ← findLeafPage fuel key false
  let p ← getLeaf leaf
  if (← require (p.lookup key)).isSome then
    pure false
  else
    let p ← require (p.insert key value)
    setLeaf leaf p
    if p.maxSize ≤ p.getSize then
      let newLeaf ← split .LeafPage leaf
      let p ← getLeaf leaf
      let q ← getLeaf newLeaf
      setLeaf newLeaf { q with nextPageID := p.nextPageID }
      setLeaf leaf { p with nextPageID := some q.pageID }
      insertIntoParent fuel leaf (← require (q.keyAt 0)) newLeaf
      unpinPage (← getLeaf newLeaf).pageID true
    unpinPage (← getLeaf leaf).pageID true
    pure true

def insert (fuel : Nat) (key : K) (value : V) : ArrayProg K V Bool := do
  if (← getMember).rootPageID = INVALID_PAGE_ID then
    startNewTree key value
    pure true
  else
    insertIntoLeaf fuel key value

end Insertion

/-! ## Removal -/

def adjustRoot (oldRootNode : PageIDType) : ArrayProg K V Bool := do
  let n ← getNode oldRootNode
  if !n.isRootPage then
    Prog.fail
  else if n.isLeafPage && n.size = 0 then
    setRootPageID INVALID_PAGE_ID
    updateRootPageID
    pure true
  else if !n.isLeafPage && n.size = 1 then
    let newRootPageID ← BPlusTreeInternalPage.removeAndReturnOnlyChild oldRootNode
    setRootPageID (some newRootPageID)
    updateRootPageID
    fetchPage newRootPageID
    setParentPageID newRootPageID INVALID_PAGE_ID
    unpinPage (← getNode newRootPageID).pageID true
    pure true
  else
    pure false

def coalesce (coalesceOrRedistribute : PageIDType → ArrayProg K V Bool) (N : NodeType)
    (neighborNode node parent : PageIDType) (index : Nat) : ArrayProg K V (PageIDType × PageIDType × Bool) := do
  let p ← getInternal parent
  let swap := (← require (p.valueAt index)) = (← getNode neighborNode).pageID
  let (neighborNode, node) := if swap then (node, neighborNode) else (neighborNode, node)
  match N with
  | .LeafPage => BPlusTreeLeafPage.moveAllTo node neighborNode
  | .InternalPage => BPlusTreeInternalPage.moveAllTo node neighborNode (← require (p.keyAt index))
  let p ← require ((← getInternal parent).remove index)
  setInternal parent p
  if p.getSize < p.getMinSize then
    pure (neighborNode, node, ← coalesceOrRedistribute parent)
  else
    pure (neighborNode, node, false)

def redistribute (N : NodeType) (neighborNode node : PageIDType) (index : Nat) : ArrayProg K V Unit := do
  let n ← getNode node
  let parent ← require n.parentPageID
  fetchPage parent
  let p ← getInternal parent
  if (← require (p.valueAt index)) = n.pageID then
    match N with
    | .LeafPage => do
      BPlusTreeLeafPage.moveLastToFrontOf neighborNode node
      setInternal parent (← require (p.setKeyAt index (← require ((← getLeaf node).keyAt 0))))
    | .InternalPage => do
      let neighbor ← getInternal neighborNode
      let lastKey ← require (neighbor.keyAt (neighbor.getSize - 1))
      BPlusTreeInternalPage.moveLastToFrontOf neighborNode node (← require (p.keyAt index))
      setInternal parent (← require (p.setKeyAt index lastKey))
  else
    match N with
    | .LeafPage => do
      BPlusTreeLeafPage.moveFirstToEndOf neighborNode node
      setInternal parent (← require (p.setKeyAt index (← require ((← getLeaf neighborNode).keyAt 0))))
    | .InternalPage => do
      let firstKey ← require ((← getInternal neighborNode).keyAt 1)
      BPlusTreeInternalPage.moveFirstToEndOf neighborNode node (← require (p.keyAt index))
      setInternal parent (← require (p.setKeyAt index firstKey))

def coalesceOrRedistribute : Nat → NodeType → PageIDType → ArrayProg K V Bool
  | 0, _, _ => Prog.fail
  | fuel + 1, N, node => do
    let n ← getNode node
    match n.parentPageID with
    | none =>
      if n.isLeafPage && n.size = 0 then
        let _ ← adjustRoot node
        pure true
      else if !n.isLeafPage && n.size = 1 then
        let _ ← adjustRoot node
        pure true
      else
        pure false
    | some parent => do
      fetchPage parent
      let p ← getInternal parent
      let thisIndex ← require (p.valueIndex n.pageID)
      let (siblingIndex, middleIndex) ← require
        (if thisIndex + 1 = p.getSize then
          if thisIndex = 0 then none else some (thisIndex - 1, thisIndex)
        else some (thisIndex + 1, thisIndex + 1))
      let sibling ← require (p.valueAt siblingIndex)
      fetchPage sibling
      if (← getNode sibling).size + n.size < n.maxSize then
        let (neighborNode, node, needDelete) ← coalesce (coalesceOrRedistribute fuel .InternalPage) N sibling node parent
          middleIndex
        let parentID := (← getInternal parent).pageID
        unpinPage parentID true
        if needDelete then
          let _ ← deleteIndexPage parentID
        if neighborNode ≠ sibling then
          let nodeID := (← getNode node).pageID
          unpinPage nodeID true
          let _ ← deleteIndexPage nodeID
          pure false
        else
          unpinPage (← getNode neighborNode).pageID true
          pure true
      else
        redistribute N sibling node middleIndex
        unpinPage (← getNode sibling).pageID true
        unpinPage (← getInternal parent).pageID true
        pure false

def remove (fuel : Nat) (key : K) : ArrayProg K V (Option V) := do
  if (← getMember).rootPageID = INVALID_PAGE_ID then
    pure none
  else
    let leaf ← findLeafPage fuel key false
    match ← require ((← getLeaf leaf).removeAndDeleteRecord key) with
    | (none, p) => do
      unpinPage p.pageID false
      pure none
    | (some removedValue, p) => do
      setLeaf leaf p
      let needDelete ← if p.getSize < p.getMinSize then coalesceOrRedistribute fuel .LeafPage leaf else pure false
      let leafID := (← getLeaf leaf).pageID
      unpinPage leafID true
      if needDelete then
        let _ ← deleteIndexPage leafID
      pure (some removedValue)

/-! ## Runs of calls -/

/-- The index file of a new database. -/
def create (leafMaxSize internalMaxSize : Nat) : ArrayStore K V where
  page k := if k = 0 then some (.header IndexFileHeader.init) else none
  pins _ := 0
  latch _ := .reading 0
  member := { rootPageID := INVALID_PAGE_ID, leafMaxSize, internalMaxSize }

/-- No walk is longer than the number of pages. -/
def bound (s : ArrayStore K V) : Nat :=
  match s.page 0 with
  | some (.header h) => h.nextPageID
  | _ => 0

variable [Inhabited K] [Inhabited V]

def callProg (fuel : Nat) : Call K V → ArrayProg K V (Answer V)
  | .insert key value => do pure (.inserted (← insert fuel key value))
  | .remove key => do pure (.found (← remove fuel key))
  | .getValue key => do pure (.found (← getValue fuel key))

def call (c : Call K V) (s : ArrayStore K V) : Option (Answer V × ArrayStore K V) :=
  Prog.run PageStore.exec (callProg (bound s) c) s

def calls : List (Call K V) → ArrayStore K V → Option (List (Answer V) × ArrayStore K V)
  | [], s => some ([], s)
  | c :: cs, s => do
    let (a, s') ← call c s
    let (as, s'') ← calls cs s'
    pure (a :: as, s'')

end

end ArrayTree

end MisakiDB
