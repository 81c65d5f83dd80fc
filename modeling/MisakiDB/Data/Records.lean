import MisakiDB.Data.FreeSpace
import MisakiDB.Lib.Runs
/-!
# Records, one call at a time

`Inv` ties the three files together: each live record (`Held`) lies in its slot with
its key, and its value follows it there or lies in a chain of its own. It is kept by
an insertion and by a removal, and `getRecordValue` reads what was inserted.
-/

namespace MisakiDB.DataAccessor

open Prog PageStore DataFileManager

/-- A record: its key, its value, and the chain of the value when it is a blob. -/
structure Item where
  key : List Byte
  value : List Byte
  chain : Option Chain

namespace Item

/-- What the record has behind its key. -/
def payload (x : Item) : List Byte :=
  match x.chain with
  | none => x.value
  | some c => leBytes 4 c.head

def bytes (x : Item) : List Byte := x.key ++ x.payload

def blobPages (x : Item) : List Nat :=
  match x.chain with
  | none => []
  | some c => c.pages

/-- The chain of a blob holds its key and its value. -/
def Stored (s : DataStore) (x : Item) : Prop :=
  ∀ c, x.chain = some c → c.key = x.key ∧ c.value = x.value ∧ bytesOf c.head = some (leBytes 4 c.head) ∧ c.Stored s true

theorem Stored.frame {s s' : DataStore} {x : Item} (hs : x.Stored s)
    (hp : ∀ p ∈ x.blobPages, s'.page (blobKey p) = s.page (blobKey p)) : x.Stored s' := by
  intro c hc
  obtain ⟨hkey, hvalue, hhead, hstored⟩ := hs c hc
  refine ⟨hkey, hvalue, hhead, hstored.frame fun p h => hp p ?_⟩
  rw [blobPages, hc]
  exact h

theorem bytes_split (x : Item) (hkey : x.key.length = RECORD_KEY_SIZE) :
    x.bytes.take RECORD_KEY_SIZE = x.key ∧ x.bytes.drop RECORD_KEY_SIZE = x.payload := by
  unfold bytes
  rw [← hkey, List.take_left, List.drop_left]
  exact ⟨rfl, rfl⟩

end Item

/-- A live record, under its id. -/
structure Held extends Item where
  id : RecordIDType

def Held.toRec (h : Held) : DataFilePage.Rec := ⟨h.id.slotArrayIndex, h.bytes, h.chain.isSome⟩

/-- The records of a page, the latest first. -/
def areaOf (recs : List Held) (p : Nat) : List DataFilePage.Rec := (recs.filter (·.id.pageID = p)).map Held.toRec

/-- The pages of all blobs. -/
def blobPages (recs : List Held) : List Nat := recs.flatMap fun h => h.blobPages

def toMap (recs : List Held) (id : RecordIDType) : Option (List Byte × List Byte) :=
  (recs.find? (·.id = id)).map fun h => (h.key, h.value)

/-- The files hold the records. -/
structure Inv (s : DataStore) (recs : List Held) (book : Nat → FreeSpaceEntry)
    (shelf : Nat → Nat × List DataFilePage.Rec)
    (lost : Nat → Nat) (free : List Nat) (N M B : Nat) : Prop where
  idle : Idle s
  pages : Pages s N M book shelf lost
  blobs : BlobAlloc s (blobPages recs) free B
  nodup : (recs.map Held.id).Nodup
  shelved : ∀ p, (shelf p).2 = areaOf recs p
  pos : ∀ h ∈ recs, 1 ≤ h.id.pageID
  key : ∀ h ∈ recs, h.key.length = RECORD_KEY_SIZE
  stored : ∀ h ∈ recs, h.Stored s

variable {s s' : DataStore} {recs : List Held} {book : Nat → FreeSpaceEntry} {shelf : Nat → Nat × List DataFilePage.Rec}
  {lost : Nat → Nat} {free : List Nat} {N M B : Nat}

/-- The pages are what they were. -/
theorem Inv.frame_all (hi : Inv s recs book shelf lost free N M B) (hidle : Idle s') (hp : s'.page = s.page) :
    Inv s' recs book shelf lost free N M B := by
  refine ⟨hidle, hi.pages.frame (fun _ => by rw [hp]) fun _ => by rw [hp],
    hi.blobs.frame_all fun _ => by rw [hp], hi.nodup,
    hi.shelved, hi.pos, hi.key, fun h hh => ?_⟩
  exact (hi.stored h hh).frame fun _ _ => by rw [hp]

/-! ## Lists of records -/

theorem toMap_cons (h : Held) (recs : List Held) :
    toMap (h :: recs) = Function.update (toMap recs) h.id (some (h.key, h.value)) := by
  funext id
  by_cases hid : id = h.id
  · subst hid
    simp [toMap]
  · have hne : ¬ h.id = id := fun heq => hid heq.symm
    simp [toMap, hid, hne]

theorem toMap_eq_some {id : RecordIDType} {key value : List Byte} (hm : toMap recs id = some (key, value)) :
    ∃ front h back, recs = front ++ h :: back ∧ h.id = id ∧ h.key = key ∧ h.value = value := by
  unfold toMap at hm
  rw [Option.map_eq_some_iff] at hm
  obtain ⟨h, hfind, heq⟩ := hm
  obtain ⟨front, back, hsplit⟩ := List.append_of_mem (List.mem_of_find?_eq_some hfind)
  have hid := List.find?_some hfind
  simp only [decide_eq_true_eq] at hid
  simp only [Prod.mk.injEq] at heq
  exact ⟨front, h, back, hsplit, hid, heq.1, heq.2⟩

theorem toMap_eq_none {id : RecordIDType} (hm : toMap recs id = none) : ∀ h ∈ recs, h.id ≠ id := by
  unfold toMap at hm
  rw [Option.map_eq_none_iff, List.find?_eq_none] at hm
  intro h hh hid
  have := hm h hh
  simp [hid] at this

theorem toMap_iff (hnd : (recs.map Held.id).Nodup) {id : RecordIDType} {key value : List Byte} :
    toMap recs id = some (key, value) ↔ ∃ h ∈ recs, h.id = id ∧ h.key = key ∧ h.value = value := by
  constructor
  · intro hm
    obtain ⟨front, h, back, rfl, hid, hkey, hvalue⟩ := toMap_eq_some hm
    exact ⟨h, by simp, hid, hkey, hvalue⟩
  · rintro ⟨h, hh, rfl, rfl, rfl⟩
    rcases hm : toMap recs h.id with _ | ⟨key, value⟩
    · exact absurd rfl (toMap_eq_none hm h hh)
    · obtain ⟨front, x, back, rfl, hid, rfl, rfl⟩ := toMap_eq_some hm
      obtain rfl : x = h := List.inj_on_of_nodup_map hnd (by simp) hh hid
      rfl

/-- The record with the id goes. -/
theorem toMap_remove {front back : List Held} {h : Held} (hnd : ((front ++ h :: back).map Held.id).Nodup) :
    toMap (front ++ back) = Function.update (toMap (front ++ h :: back)) h.id none := by
  rw [List.map_append, List.map_cons] at hnd
  obtain ⟨-, hback, hdisj⟩ := List.nodup_append.1 hnd
  have hfront : ∀ x ∈ front, x.id ≠ h.id := fun x hx => hdisj _ (List.mem_map_of_mem hx) _ List.mem_cons_self
  have hback' : ∀ x ∈ back, x.id ≠ h.id := fun x hx heq =>
    (List.nodup_cons.1 hback).1 (heq ▸ List.mem_map_of_mem hx)
  funext id
  by_cases hid : id = h.id
  · subst hid
    rw [Function.update_self, toMap, Option.map_eq_none_iff, List.find?_eq_none]
    intro x hx
    rcases List.mem_append.1 hx with hx | hx
    · simpa using hfront x hx
    · simpa using hback' x hx
  · have hne : ¬ h.id = id := fun heq => hid heq.symm
    rw [Function.update_of_ne hid]
    simp [toMap, List.find?_append, hne]

theorem areaOf_append (a b : List Held) (p : Nat) : areaOf (a ++ b) p = areaOf a p ++ areaOf b p := by
  simp [areaOf]

theorem areaOf_cons (h : Held) (recs : List Held) (p : Nat) :
    areaOf (h :: recs) p = if h.id.pageID = p then h.toRec :: areaOf recs p else areaOf recs p := by
  unfold areaOf
  split <;> simp [*]

theorem blobPages_append (a b : List Held) : blobPages (a ++ b) = blobPages a ++ blobPages b := by
  simp [blobPages]

theorem blobPages_cons (h : Held) (recs : List Held) : blobPages (h :: recs) = h.blobPages ++ blobPages recs := by
  simp [blobPages]

theorem blobPages_split (front back : List Held) (h : Held) :
    (blobPages (front ++ h :: back)).Perm (h.blobPages ++ blobPages (front ++ back)) := by
  rw [blobPages_append, blobPages_cons, blobPages_append]
  exact List.perm_append_comm_assoc _ _ _

/-! ## Reading a record -/

/-- The record lies in its page. -/
theorem Inv.page (hi : Inv s recs book shelf lost free N M B) {front back : List Held} {h : Held}
    (hrecs : recs = front ++ h :: back) : h.id.pageID < N ∧
    ∃ raw, s.page (dataKey h.id.pageID) = some (.data raw) ∧ (shelf h.id.pageID).2 =
      areaOf front h.id.pageID ++ h.toRec :: areaOf back h.id.pageID ∧
      DataFilePage.Holds raw (shelf h.id.pageID).1 (areaOf front h.id.pageID ++ h.toRec :: areaOf back h.id.pageID) := by
  have hmem : h ∈ recs := by simp [hrecs]
  have harea : (shelf h.id.pageID).2 = areaOf front h.id.pageID ++ h.toRec :: areaOf back h.id.pageID := by
    rw [hi.shelved, hrecs, areaOf_append, areaOf_cons, if_pos rfl]
  have hN : h.id.pageID < N := by
    by_contra hge
    rw [(hi.pages.beyond _ (Nat.not_lt.1 hge)).2] at harea
    simp at harea
  obtain ⟨raw, hraw, hholds⟩ := hi.pages.data.page _ (hi.pos h hmem) hN
  unfold Shelved at hholds
  rw [harea] at hholds
  exact ⟨hN, raw, hraw, harea, hholds⟩

/-- No chain has more pages than the file. -/
theorem Inv.rest_length (hi : Inv s recs book shelf lost free N M B) {h : Held} (hh : h ∈ recs) {c : Chain}
    (hc : h.chain = some c) : c.pages.length < B := by
  obtain ⟨front, back, rfl⟩ := List.append_of_mem hh
  have hlen := hi.blobs.perm.length_eq
  have hsplit := (blobPages_split front back h).length_eq
  have hpos := hi.blobs.next_pos
  rw [List.length_append, List.length_range'] at hlen
  rw [List.length_append] at hsplit
  have hpages : h.blobPages = c.pages := by rw [Item.blobPages, hc]
  rw [hpages] at hsplit
  omega

/-- Reading a live record finds its value and leaves the pages as they are. -/
theorem getRecordValue_spec (hi : Inv s recs book shelf lost free N M B) {h : Held} (hh : h ∈ recs) {fuel : Nat}
    (hfuel : B ≤ fuel) :
    wp exec (getRecordValue fuel h.key h.id) (fun r s' => r = some h.value ∧ s'.page = s.page ∧ s'.member = s.member ∧
      SameHeld s s') s := by
  obtain ⟨front, back, hrecs⟩ := List.append_of_mem hh
  obtain ⟨hN, raw, hraw, -, hholds⟩ := hi.page hrecs
  have hget := DataFilePage.getRecordValue_holds hholds (r := h.toRec) (by simp) h.key
  obtain ⟨htake, hdrop⟩ := h.bytes_split (hi.key h hh)
  rw [Held.toRec, htake, if_pos rfl, hdrop] at hget
  have hholdsKey : DataFilePage.HoldsKey raw h.key h.id.slotArrayIndex :=
    (DataFilePage.getRecordValue_isSome_iff hget).1 rfl
  have hheld := getRecordValue_held (s := s) fuel h.key h.id
  have hpage : pageAs s (dataKey h.id.pageID) FilePage.asData = some raw := by simp [pageAs, hraw, FilePage.asData]
  suffices hwp : wp exec (getRecordValue fuel h.key h.id)
      (fun r s' => r = some h.value ∧ s'.page = s.page ∧ s'.member = s.member) s by
    apply wp_conseq (wp_and_wlp hwp hheld)
    rintro r s' ⟨⟨hr, hp, hm⟩, hiff⟩
    exact ⟨hr, hp, hm, hiff.2 ⟨raw, hpage, hholdsKey⟩⟩
  unfold getRecordValue
  simp only [wp_bind, wp_fetchPage, wp_rLatch, wp_getDataPage, wp_demand]
  refine ⟨⟨_, hraw⟩, 0, hi.idle _, raw, hpage, _, hget, ?_⟩
  simp only [wp_bind, wp_rUnlatch, wp_unpinPage]
  refine ⟨0, by simp, by simp, ?_⟩
  generalize hs₁ : PageStore.setPins (PageStore.setLatch _ (dataKey h.id.pageID) (.reading 0)) (dataKey h.id.pageID) _ = s₁
  have hpages : s₁.page = s.page := by rw [← hs₁]; rfl
  have hmem : s₁.member = s.member := by rw [← hs₁]; rfl
  -- the value is in the record, or in the chain that it points to
  rcases hc : h.chain with _ | c
  · simp only [Option.isSome_none, Bool.false_eq_true, if_false]
    refine (wp_pure _).2 ⟨?_, hpages, hmem⟩
    rw [Item.payload, hc]
  · obtain ⟨hkey, hvalue, hbytes, hstored⟩ := hi.stored h hh c hc
    have hlen := hi.rest_length hh hc
    have hidle₁ : Idle s₁ := fun k => by
      by_cases hk : k = dataKey h.id.pageID
      · simp [← hs₁, hk]
      · simp [← hs₁, hk, hi.idle k]
    have hpayload : h.payload = leBytes 4 c.head := by rw [Item.payload, hc]
    simp only [Option.isSome_some, if_true]
    rw [hpayload, ← hkey, ← hvalue]
    refine wp_conseq (getBlob_spec (hstored.frame fun _ _ => by rw [hpages]) hbytes hidle₁ ?_) ?_
    · have hpl : c.pages.length = c.rest.length + 1 := by simp [Chain.pages, Chain.restPages]
      omega
    · rintro r s' ⟨rfl, hp, hm⟩
      exact ⟨rfl, hp.trans hpages, hm.trans hmem⟩

/-- A record that its page finds under a key is a live one of that key. -/
theorem Inv.finds (hi : Inv s recs book shelf lost free N M B) {key : List Byte} {id : RecordIDType} {raw : RawPage}
    {r : List Byte × Bool} (hraw : pageAs s (dataKey id.pageID) FilePage.asData = some raw)
    (hfind : DataFilePage.getRecordValue raw key id.slotArrayIndex = some (some r)) :
    ∃ h ∈ recs, h.id = id ∧ h.key = key := by
  have hpos : 1 ≤ id.pageID := by
    by_contra hzero
    rw [pageAs, Nat.lt_one_iff.1 (Nat.not_le.1 hzero), hi.pages.data.header] at hraw
    cases hraw
  have hlt : id.pageID < N := by
    by_contra hge
    rw [pageAs, hi.pages.data.fresh _ (Nat.not_lt.1 hge)] at hraw
    cases hraw
  obtain ⟨raw', hpage, hholds⟩ := hi.pages.data.page _ hpos hlt
  obtain rfl : raw' = raw := by
    rw [pageAs, hpage] at hraw
    exact Option.some.inj hraw
  obtain ⟨x, hx, hslot, hkey⟩ := DataFilePage.getRecordValue_found hholds hfind
  rw [hi.shelved] at hx
  obtain ⟨h, hh, rfl⟩ := List.mem_map.1 hx
  obtain ⟨hh, hp⟩ := List.mem_filter.1 hh
  refine ⟨h, hh, ?_, ?_⟩
  · obtain ⟨⟨p, i⟩, hid⟩ : ∃ id', h.id = id' := ⟨_, rfl⟩
    obtain rfl : p = id.pageID := (congrArg RecordIDType.pageID hid).symm.trans (of_decide_eq_true hp)
    obtain rfl : i = id.slotArrayIndex := (congrArg RecordIDType.slotArrayIndex hid).symm.trans hslot
    exact hid
  · rw [← hkey]
    exact (h.bytes_split (hi.key h hh)).1.symm

/-! ## Inserting a record -/

/-- The values whose record fits a page, in line or as a blob. -/
def Fits (value : List Byte) : Prop :=
  RECORD_KEY_SIZE + value.length ≤ DataFilePage.MAX_RECORD_SIZE ∨ DataFilePage.MAX_RECORD_SIZE < value.length

instance (value : List Byte) : Decidable (Fits value) := inferInstanceAs (Decidable (_ ∨ _))

/-- A record whose chain is stored goes to its page. -/
theorem placeRecord_held_spec (hi : Inv s recs book shelf lost free N M B) (hidle : Idle s')
    (hpages : ∀ p, s'.page (dataKey p) = s.page (dataKey p)) (hmaps : ∀ i, s'.page (mapKey i) = s.page (mapKey i))
    (x : Item)
    (hkey : x.key.length = RECORD_KEY_SIZE) (hsize : x.bytes.length ≤ DataFilePage.MAX_RECORD_SIZE)
    {free' : List Nat} {B' : Nat}
    (hblobs : BlobAlloc s' (x.blobPages ++ blobPages recs) free' B') (hstored : ∀ h ∈ recs, h.Stored s')
    (hnew : x.Stored s') :
    wp exec (placeRecord x.bytes x.chain.isSome) (fun id t => (book id.pageID).fits x.bytes.length = true ∧
      t.member = s'.member ∧ ∃ N' M',
      Inv t (⟨x, id⟩ :: recs) (Function.update book id.pageID ((book id.pageID).reserve x.bytes.length))
        (Function.update shelf id.pageID (DataFilePage.grow (shelf id.pageID).1 (shelf id.pageID).2,
          (Held.mk x id).toRec :: (shelf id.pageID).2)) lost free' N' M' B') s' := by
  have hlen : RECORD_KEY_SIZE ≤ x.bytes.length := by
    rw [Item.bytes, List.length_append, hkey]
    exact Nat.le_add_right _ _
  refine wp_conseq (wp_and_wlp (placeRecord_spec (hi.pages.frame hpages hmaps) hidle x.chain.isSome hlen hsize)
    (placeRecord_held _ _)) ?_
  rintro id t ⟨⟨hid, hfresh, hfits, hblobpages, hmember, N', M', hp⟩, hheld⟩
  refine ⟨hfits, hmember, N', M', hheld.idle hidle, hp, ?_, ?_, ?_, ?_, ?_, ?_⟩
  · rw [blobPages_cons]
    exact hblobs.frame_all hblobpages
  · -- the slot was free
    rw [List.map_cons, List.nodup_cons]
    refine ⟨fun hmem => hfresh ?_, hi.nodup⟩
    obtain ⟨h, hh, hid'⟩ := List.mem_map.1 hmem
    rw [hi.shelved, DataFilePage.mem_slots]
    refine ⟨h.toRec, List.mem_map_of_mem (List.mem_filter.2 ⟨hh, by simp [hid']⟩), ?_⟩
    rw [Held.toRec, hid']
  · intro p
    rw [areaOf_cons]
    by_cases hpid : p = id.pageID
    · subst hpid
      simp [hi.shelved]
    · have hne : ¬ id.pageID = p := fun h => hpid h.symm
      simp [hpid, hne, hi.shelved]
  · exact List.forall_mem_cons.2 ⟨hid, hi.pos⟩
  · exact List.forall_mem_cons.2 ⟨hkey, hi.key⟩
  · refine List.forall_mem_cons.2 ⟨hnew.frame fun _ _ => hblobpages _, fun h hh => ?_⟩
    exact (hstored h hh).frame fun _ _ => hblobpages _

/-- The record of an insertion, with the entry charged for it. -/
def Inserted (s : DataStore) (recs : List Held) (book : Nat → FreeSpaceEntry)
    (shelf : Nat → Nat × List DataFilePage.Rec)
    (lost : Nat → Nat) (key value : List Byte) (id : RecordIDType) (t : DataStore) : Prop :=
  ∃ chain free' N' M' B', (book id.pageID).fits (Item.bytes ⟨key, value, chain⟩).length = true ∧
    (chain.isSome ↔ DataFilePage.MAX_RECORD_SIZE < value.length) ∧
    (∀ c, chain = some c → c.blobID = s.member.nextBlobID + 1 ∧ t.member = ⟨s.member.nextBlobID + 1⟩) ∧
    (chain = none → t.member = s.member) ∧
    Inv t (⟨⟨key, value, chain⟩, id⟩ :: recs)
      (Function.update book id.pageID ((book id.pageID).reserve (Item.bytes ⟨key, value, chain⟩).length))
      (Function.update shelf id.pageID (DataFilePage.grow (shelf id.pageID).1 (shelf id.pageID).2,
        (Held.mk ⟨key, value, chain⟩ id).toRec :: (shelf id.pageID).2)) lost free' N' M' B'

/-- What follows the chain's first page id. -/
theorem placeBlob_spec (hi : Inv s recs book shelf lost free N M B) {key value : List Byte}
    (hkey : key.length = RECORD_KEY_SIZE) (hvalue : DataFilePage.MAX_RECORD_SIZE < value.length) {t : DataStore}
    (hheld : SameHeld s t) {c : Chain} (hck : c.key = key) (hcv : c.value = value) (hc : c.Stored t true)
    (hframe : ∀ k, k ≠ blobKey 0 → (∀ x ∈ c.pages, k ≠ blobKey x) → t.page k = s.page k) {free' : List Nat} {B' : Nat}
    (hid : c.blobID = s.member.nextBlobID + 1) (hmember : t.member = ⟨s.member.nextBlobID + 1⟩)
    (ha : BlobAlloc t (c.pages ++ blobPages recs) free' B') {bytes : List Byte} (hbytes : bytesOf c.head = some bytes) :
    wp exec (placeRecord (key ++ bytes) true) (Inserted s recs book shelf lost key value) t := by
  have hle : bytes = leBytes 4 c.head := by
    unfold bytesOf at hbytes
    split at hbytes
    · exact (Option.some.inj hbytes).symm
    · cases hbytes
  subst hle
  have hlen : (Item.bytes ⟨key, value, some c⟩).length = 28 := by
    rw [Item.bytes, List.length_append, hkey, Item.payload, leBytes_length]
    rfl
  have hnd := (List.nodup_append.1 ha.nodup).1
  have hrecs : ∀ h ∈ recs, h.Stored t := fun h hh => by
    refine (hi.stored h hh).frame fun p hp => hframe _ ?_ fun x hx => ?_
    · have hmem : p ∈ blobPages recs := List.mem_flatMap.2 ⟨h, hh, hp⟩
      have hp1 := ((hi.blobs.mem_iff p).1 (.inl hmem)).1
      intro h0
      rw [blobKey_inj.1 h0] at hp1
      exact absurd hp1 (by decide)
    · have hne : p ≠ x := ((List.nodup_append.1 hnd).2.2 x hx p (List.mem_flatMap.2 ⟨h, hh, hp⟩)).symm
      simpa using hne
  refine wp_conseq (placeRecord_held_spec hi (hheld.idle hi.idle) (fun p => hframe _ (by simp) fun x _ => by simp)
    (fun i => hframe _ (by simp) fun x _ => by simp) ⟨key, value, some c⟩ hkey (by rw [hlen]; decide) ha hrecs ?_) ?_
  · rintro c' ⟨rfl⟩
    exact ⟨hck, hcv, hbytes, hc⟩
  · rintro id s' ⟨hfits, hm, N', M', hinv⟩
    refine ⟨some c, free', N', M', B', hfits, by simp [hvalue], ?_, (fun h => by cases h), hinv⟩
    rintro c' ⟨rfl⟩
    exact ⟨hid, hm.trans hmember⟩

/-- The value is in its page. -/
theorem placeInline_spec (hi : Inv s recs book shelf lost free N M B) {key value : List Byte}
    (hkey : key.length = RECORD_KEY_SIZE) (hsize : RECORD_KEY_SIZE + value.length ≤ DataFilePage.MAX_RECORD_SIZE) :
    wp exec (placeRecord (key ++ value) false) (Inserted s recs book shelf lost key value) s := by
  have hlen : (Item.bytes ⟨key, value, none⟩).length = RECORD_KEY_SIZE + value.length := by
    rw [Item.bytes, List.length_append, hkey]
    rfl
  refine wp_conseq (placeRecord_held_spec hi hi.idle (fun _ => rfl) (fun _ => rfl) ⟨key, value, none⟩ hkey
    (by rw [hlen]; exact hsize) hi.blobs hi.stored fun c hc => by cases hc) ?_
  rintro id s' ⟨hfits, hm, N', M', hinv⟩
  refine ⟨none, free, N', M', B, hfits, ?_, (fun c h => by cases h), fun _ => hm, hinv⟩
  have : ¬ DataFilePage.MAX_RECORD_SIZE < value.length := Nat.not_lt.2 ((Nat.le_add_left _ _).trans hsize)
  simp [this]

/-- An insertion that returns has put the record into the files. -/
theorem insertRecord_spec (hi : Inv s recs book shelf lost free N M B) {key value : List Byte} (hfits : Fits value) :
    wlp exec (insertRecord key value) (Inserted s recs book shelf lost key value) s := by
  unfold insertRecord
  split
  · exact wlp_fail
  rename_i hkey
  rw [not_not] at hkey
  split
  · rename_i hvalue
    rw [insertBlob_eq, bind_assoc, wlp_bind]
    have hne : value ≠ [] := by
      rintro rfl
      exact absurd hvalue (by decide)
    refine wlp_conseq (wlp_of_wp (wp_and_wlp (storeBlob_spec hi.blobs hi.idle hkey hne) (storeBlob_held key value))) ?_
    rintro first t ⟨⟨c, rfl, -, hck, hcv, hid, hc, hframe, hm, free', B', ha⟩, hheld⟩
    rw [wlp_bind, wlp_demand]
    intro bytes hbytes
    exact wlp_of_wp (placeBlob_spec hi hkey hvalue hheld hck hcv hc hframe hid hm ha hbytes)
  · rename_i hvalue
    exact wlp_of_wp (placeInline_spec hi hkey (hfits.resolve_right hvalue))

/-- An insertion returns, as long as page ids do not run out. -/
theorem insertRecord_returns (hi : Inv s recs book shelf lost free N M B) {key value : List Byte}
    (hkey : key.length = RECORD_KEY_SIZE) (hfits : Fits value)
    (hB : DataFilePage.MAX_RECORD_SIZE < value.length → B < 2 ^ 32 - 1) :
    ∃ r, run exec (insertRecord key value) s = some r := by
  suffices h : wp exec (insertRecord key value) (fun _ _ => True) s by
    obtain ⟨a, s', hr, -⟩ := h
    exact ⟨_, hr⟩
  unfold insertRecord
  rw [if_neg (not_not.2 hkey)]
  split
  · rename_i hvalue
    rw [insertBlob_eq, bind_assoc, wp_bind]
    have hne : value ≠ [] := by
      rintro rfl
      exact absurd hvalue (by decide)
    apply wp_conseq (wp_and_wlp (storeBlob_spec hi.blobs hi.idle hkey hne) (storeBlob_held key value))
    rintro first t ⟨⟨c, rfl, hle, hck, hcv, hid, hc, hframe, hm, free', B', ha⟩, hheld⟩
    have hbytes : bytesOf c.head = some (leBytes 4 c.head) := by
      unfold bytesOf
      rw [if_pos (lt_of_le_of_lt hle (hB hvalue))]
    rw [wp_bind, wp_demand]
    refine ⟨_, hbytes, ?_⟩
    exact wp_conseq (placeBlob_spec hi hkey hvalue hheld hck hcv hc hframe hid hm ha hbytes) fun _ _ _ => trivial
  · rename_i hvalue
    exact wp_conseq (placeInline_spec hi hkey (hfits.resolve_right hvalue)) fun _ _ _ => trivial

/-! ## Removing a record -/

theorem recordID_ext {a b : RecordIDType} (hp : a.pageID = b.pageID) (hs : a.slotArrayIndex = b.slotArrayIndex) :
    a = b := by
  cases a
  cases b
  simp only at hp hs
  rw [hp, hs]

/-- A record that is not there cannot be removed: the slot has no record, or is not one. -/
theorem removeRecord_none (hi : Inv s recs book shelf lost free N M B) {id : RecordIDType} (fuel : Nat)
    (hid : ∀ h ∈ recs, h.id ≠ id) : run exec (removeRecord fuel id) s = none := by
  by_contra hne
  obtain ⟨⟨_, s'⟩, hr⟩ := Option.ne_none_iff_exists'.1 hne
  have hfalse : wlp exec (removeRecord fuel id) (fun _ _ => False) s := by
    unfold removeRecord
    simp only [wlp_bind, wlp_fetchPage, wlp_wLatch, wlp_getDataPage, wlp_demand]
    intro pg hpg hlatch raw hraw r hremove
    have hraw' : (s.page (dataKey id.pageID)).bind FilePage.asData = some raw := hraw
    have hpg' : s.page (dataKey id.pageID) = some pg := hpg
    by_cases hp : 1 ≤ id.pageID ∧ id.pageID < N
    · -- a page with records
      obtain ⟨raw', hraw'', hholds⟩ := hi.pages.data.page _ hp.1 hp.2
      unfold Shelved at hholds
      obtain rfl : raw' = raw := by
        rw [hraw'', Option.bind_some, FilePage.asData, Option.some.injEq] at hraw'
        exact hraw'
      unfold DataFilePage.removeRecord at hremove
      split at hremove
      · rename_i hcond
        rw [hholds.getSlotsNum] at hcond
        refine absurd (hholds.free _ (by omega) fun hmem => ?_) hcond.2
        rw [hi.shelved, DataFilePage.mem_slots] at hmem
        obtain ⟨x, hx, hslot⟩ := hmem
        obtain ⟨h, hh, rfl⟩ := List.mem_map.1 hx
        rw [List.mem_filter, decide_eq_true_eq] at hh
        exact hid h hh.1 (recordID_ext hh.2 hslot)
      · cases hremove
    · by_cases h0 : id.pageID = 0
      · -- the header
        rw [h0, hi.pages.data.header] at hraw'
        simp [FilePage.asData] at hraw'
      · rw [hi.pages.data.fresh _ (by
          have : 1 ≤ id.pageID := Nat.one_le_iff_ne_zero.2 h0
          exact Nat.not_lt.1 fun hlt => hp ⟨this, hlt⟩)] at hpg'
        cases hpg'
  exact hfalse _ _ hr

/-- What a removal credits the page with: a blob's four bytes, not its record. -/
def credit (h : Held) : Nat := if h.chain.isSome then 4 else h.bytes.length

theorem credit_le (h : Held) (hkey : h.key.length = RECORD_KEY_SIZE) : credit h ≤ h.bytes.length := by
  unfold credit
  split
  · rw [Item.bytes, List.length_append, hkey]
    exact (by decide : 4 ≤ RECORD_KEY_SIZE).trans (Nat.le_add_right _ _)
  · exact le_rfl

/-- Removal of a live record. -/
theorem removeRecord_spec {front back : List Held} {h : Held}
    (hi : Inv s (front ++ h :: back) book shelf lost free N M B)
    {fuel : Nat} (hfuel : B ≤ fuel) :
    wp exec (removeRecord fuel h.id) (fun _ s' => s'.member = s.member ∧ ∃ free',
      Inv s' (front ++ back) (Function.update book h.id.pageID ((book h.id.pageID).addFreeSpace (credit h)))
        (Function.update shelf h.id.pageID ((shelf h.id.pageID).1, areaOf (front ++ back) h.id.pageID))
        (Function.update lost h.id.pageID (lost h.id.pageID + (h.bytes.length - credit h))) free' N M B) s := by
  have hmem : h ∈ front ++ h :: back := by simp
  obtain ⟨hN, raw, hraw, harea, hholds⟩ := hi.page rfl
  have hp1 := hi.pos h hmem
  have hle := credit_le h (hi.key h hmem)
  obtain ⟨htake, hdrop⟩ := h.bytes_split (hi.key h hmem)
  obtain ⟨raw', hremove, hholds'⟩ := DataFilePage.removeRecord_holds hholds
  rw [← areaOf_append] at hholds'
  have hcover : h.id.pageID ≤ covered M := Nat.lt_succ_iff.1 (lt_of_lt_of_le hN hi.pages.covers)
  -- the pages of records and their map
  have hpages : ∀ t : DataStore, t.page = Function.update s.page (dataKey h.id.pageID) (some (.data raw')) → Idle t →
      wp exec (addFreeSpace h.id.pageID (credit h)) (fun _ s' => MapOnly t s' ∧
        Pages s' N M (Function.update book h.id.pageID ((book h.id.pageID).addFreeSpace (credit h)))
          (Function.update shelf h.id.pageID ((shelf h.id.pageID).1, areaOf (front ++ back) h.id.pageID))
          (Function.update lost h.id.pageID (lost h.id.pageID + (h.bytes.length - credit h)))) t := by
    intro t ht hidle
    apply wp_conseq (addFreeSpace_spec (hi.pages.map.frame fun i => by simp [ht]) hidle hp1 hcover (credit h))
    rintro - s' ⟨honly, hmap⟩
    refine ⟨honly, hmap, ?_, ?_, ?_, hi.pages.covers⟩
    · refine hi.pages.data.setPage hp1 hN ?_ (shelved_update.1 raw' hholds') shelved_update.2 fun q hq => ?_
      · rw [honly.1 _ fun i => by simp, ht, Function.update_self]
      · rw [honly.1 _ fun i => by simp, ht, Function.update_of_ne (by simpa using hq)]
    · intro p hp
      by_cases hpid : p = h.id.pageID
      · subst hpid
        have hb : Booked (book h.id.pageID) ((shelf h.id.pageID).1, (shelf h.id.pageID).2) _ := hi.pages.booked _ hp
        rw [harea] at hb
        simp only [Function.update_self, areaOf_append]
        exact hb.addFreeSpace hle
      · simp only [Function.update_of_ne hpid]
        exact hi.pages.booked p hp
    · intro p hp
      have hpid : p ≠ h.id.pageID := fun heq => absurd (heq ▸ hN) (Nat.not_lt.2 hp)
      simp only [Function.update_of_ne hpid]
      exact hi.pages.beyond p hp
  -- and the blob file
  have hcontent : wp exec (removeRecord fuel h.id) (fun _ s' => s'.member = s.member ∧ ∃ free',
      Pages s' N M (Function.update book h.id.pageID ((book h.id.pageID).addFreeSpace (credit h)))
        (Function.update shelf h.id.pageID ((shelf h.id.pageID).1, areaOf (front ++ back) h.id.pageID))
        (Function.update lost h.id.pageID (lost h.id.pageID + (h.bytes.length - credit h))) ∧
      BlobAlloc s' (blobPages (front ++ back)) free' B ∧
      ∀ x, x ≠ 0 → x ∉ h.blobPages → s'.page (blobKey x) = s.page (blobKey x)) s := by
    unfold removeRecord
    simp only [wp_bind, wp_fetchPage, wp_wLatch, wp_getDataPage, wp_demand]
    refine ⟨⟨_, hraw⟩, hi.idle _, raw, by simp [pageAs, hraw, FilePage.asData], _, hremove, ?_⟩
    simp only [wp_setData, wp_wUnlatch, wp_unpinPage]
    refine ⟨⟨_, hraw⟩, by simp, by simp, ?_⟩
    generalize ht : PageStore.setPins (PageStore.setLatch (PageStore.setPage _ _ (FilePage.data raw'))
      (dataKey h.id.pageID) (.reading 0)) (dataKey h.id.pageID) _ = t
    have htpage : t.page = Function.update s.page (dataKey h.id.pageID) (some (.data raw')) := by rw [← ht]; rfl
    have htmember : t.member = s.member := by rw [← ht]; rfl
    have hidle : Idle t := fun k => by
      by_cases hk : k = dataKey h.id.pageID
      · simp [← ht, hk]
      · simp [← ht, hk, hi.idle k]
    have hblobs : BlobAlloc t (blobPages (front ++ h :: back)) free B := hi.blobs.frame_all fun x => by simp [htpage]
    have hadd := hpages t htpage hidle
    unfold DataFilePage.removed
    rcases hc : h.chain with _ | c
    · have hcredit : credit h = h.bytes.length := by simp [credit, hc]
      simp only [Held.toRec, hc, Option.isSome_none, Bool.false_eq_true, if_false, Int.toNat_natCast]
      rw [hcredit] at hadd ⊢
      apply wp_conseq hadd
      rintro - s' ⟨honly, hp⟩
      have hnone : h.blobPages = [] := by rw [Item.blobPages, hc]
      have hall := blobPages_split front back h
      rw [hnone, List.nil_append] at hall
      refine ⟨honly.2.trans htmember, free, hp,
        (hblobs.frame_all fun x => honly.1 _ fun i => by simp).congr_used hall.symm, fun x _ _ => ?_⟩
      rw [honly.1 _ fun i => by simp, htpage, Function.update_of_ne (by simp)]
    · obtain ⟨-, -, hbytes, hstored⟩ := hi.stored h hmem c hc
      have hpayload : h.payload = leBytes 4 c.head := by rw [Item.payload, hc]
      have hcredit : credit h = (leBytes 4 c.head).length := by simp [credit, hc]
      simp only [Held.toRec, hc, Option.isSome_some, if_true, hdrop, hpayload, wp_bind]
      rw [← hcredit]
      apply wp_conseq (wp_and_wlp hadd (addFreeSpace_held _ _))
      rintro - u ⟨⟨honly, hp⟩, hheld⟩
      have hsame : ∀ x, u.page (blobKey x) = s.page (blobKey x) := fun x => by
        rw [honly.1 _ fun i => by simp, htpage, Function.update_of_ne (by simp)]
      have hpages' : h.blobPages = c.pages := by rw [Item.blobPages, hc]
      have hall := blobPages_split front back h
      rw [hpages'] at hall ⊢
      have hlen := hi.rest_length hmem hc
      have hu : BlobAlloc u (c.pages ++ blobPages (front ++ back)) free B :=
        (hi.blobs.frame_all fun x => hsame x).congr_used hall.symm
      rw [removeBlob, (pageIDOf_bytesOf hbytes).1]
      refine wp_conseq (removeBlobFrom_spec hu (hstored.linked.frame fun x _ => hsame x) (hheld.idle hidle)
        (hlen.le.trans hfuel)) ?_
      rintro - s' ⟨hframe, hm, free', ha⟩
      have hother : ∀ k, (∀ x, k ≠ blobKey x) → s'.page k = u.page k := fun k hk => hframe k (hk 0) fun x _ => hk x
      refine ⟨hm.trans (honly.2.trans htmember), free',
        hp.frame (fun p => hother _ fun x => by simp) (fun i => hother _ fun x => by simp), ha,
        fun x hx0 hx => ?_⟩
      rw [hframe _ (by simpa using hx0) fun y hy => ?_, hsame]
      rw [ne_eq, blobKey_inj]
      rintro rfl
      exact hx hy
  apply wp_conseq (wp_and_wlp hcontent (removeRecord_held fuel h.id))
  rintro - s' ⟨⟨hmember, free', hp, ha, hframe⟩, hheld⟩
  have hsub : ∀ x ∈ front ++ back, x ∈ front ++ h :: back := fun x hx => by
    simp only [List.mem_append, List.mem_cons] at hx ⊢
    tauto
  have hnd := (hi.blobs.congr_used (blobPages_split front back h).symm).nodup
  have hdisj : ∀ x ∈ front ++ back, ∀ p ∈ x.blobPages, p ∉ h.blobPages ∧ p ≠ 0 := fun x hx p hp => by
    have hmem' : p ∈ blobPages (front ++ back) := List.mem_flatMap.2 ⟨x, hx, hp⟩
    refine ⟨fun hph => (List.nodup_append.1 (List.nodup_append.1 hnd).1).2.2 p hph p hmem' rfl, ?_⟩
    have hp1 := ((ha.mem_iff p).1 (.inl hmem')).1
    exact fun h0 => absurd (h0 ▸ hp1) (by decide)
  have hids := hi.nodup
  refine ⟨hmember, free', hheld.idle hi.idle, hp, ha, ?_, fun p => ?_, fun x hx => hi.pos x (hsub x hx),
    fun x hx => hi.key x (hsub x hx), fun x hx => ?_⟩
  · rw [List.map_append, List.map_cons] at hids
    rw [List.map_append]
    exact hids.sublist (List.Sublist.append_left (List.sublist_cons_self _ _) _)
  · by_cases hpid : p = h.id.pageID
    · simp [hpid]
    · have hne : ¬ h.id.pageID = p := fun heq => hpid heq.symm
      rw [Function.update_of_ne hpid, hi.shelved, areaOf_append, areaOf_cons, if_neg hne, areaOf_append]
  · exact (hi.stored x (hsub x hx)).frame fun p hp => hframe p (hdisj x hx p hp).2 (hdisj x hx p hp).1

end MisakiDB.DataAccessor
