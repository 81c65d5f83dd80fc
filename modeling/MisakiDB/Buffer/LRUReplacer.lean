import Mathlib.Data.List.Nodup
import Mathlib.Data.List.Basic
import Mathlib.Logic.Function.Basic
/-!
# `LRUReplacer`

`m_lruCache` is a linked list of frames, most recently unpinned first, and
`m_lruMap` holds for each listed frame an iterator into it. An iterator stays
valid while other nodes come and go, so nodes carry a number of their own and
an iterator is that number.

`Valid` says the two structures agree. Under it the four operations are plain
list operations on `frames`, and the buffer pool uses only those equations.
-/

namespace MisakiDB

abbrev FrameID := Nat

structure LRUReplacer where
  /-- Nodes with the frame they hold, front first. -/
  lruCache : List (Nat × FrameID)
  lruMap : FrameID → Option Nat
  /-- The number the next node gets. -/
  nextNode : Nat

namespace LRUReplacer

def empty : LRUReplacer := ⟨[], fun _ => none, 0⟩

def exist (r : LRUReplacer) (frameID : FrameID) : Bool := (r.lruMap frameID).isSome

/-- Takes the frame out of the list and the map; no effect if it is in
neither. -/
def remove (r : LRUReplacer) (frameID : FrameID) : LRUReplacer :=
  match r.lruMap frameID with
  | none => r
  | some frameIter =>
    { r with
      lruCache := r.lruCache.filter (fun e => e.1 ≠ frameIter)
      lruMap := Function.update r.lruMap frameID none }

/-- The frame at the back, removed; nothing if the list is empty. -/
def victim (r : LRUReplacer) : Option (FrameID × LRUReplacer) :=
  match r.lruCache.getLast? with
  | none => none
  | some e => some (e.2, r.remove e.2)

def pin (r : LRUReplacer) (frameID : FrameID) : LRUReplacer := r.remove frameID

def unpin (r : LRUReplacer) (frameID : FrameID) : LRUReplacer :=
  if r.exist frameID then r
  else
    { lruCache := (r.nextNode, frameID) :: r.lruCache
      lruMap := Function.update r.lruMap frameID (some r.nextNode)
      nextNode := r.nextNode + 1 }

def size (r : LRUReplacer) : Nat := r.lruCache.length

/-- The listed frames, most recently unpinned first. -/
def frames (r : LRUReplacer) : List FrameID := r.lruCache.map (·.2)

/-- No frame and no node is listed twice, and the map sends exactly the listed
frames to their nodes. -/
structure Valid (r : LRUReplacer) : Prop where
  frames_nodup : r.frames.Nodup
  nodes_nodup : (r.lruCache.map (·.1)).Nodup
  map_iff : ∀ f n, r.lruMap f = some n ↔ (n, f) ∈ r.lruCache
  nodes_lt : ∀ e ∈ r.lruCache, e.1 < r.nextNode

theorem valid_empty : Valid empty := by
  constructor <;> simp [empty, frames]

theorem mem_frames {r : LRUReplacer} {f : FrameID} : f ∈ r.frames ↔ ∃ n, (n, f) ∈ r.lruCache := by
  simp [frames]

theorem exist_iff {r : LRUReplacer} (h : Valid r) (f : FrameID) : r.exist f = true ↔ f ∈ r.frames := by
  rw [exist, Option.isSome_iff_exists, mem_frames]
  exact exists_congr fun n => h.map_iff f n

/-- On a list without repetitions in either component, filtering out a node is
erasing its frame. -/
theorem filter_node_eq_erase (l : List (Nat × FrameID)) (hn : (l.map (·.1)).Nodup) (hf : (l.map (·.2)).Nodup)
    {n : Nat} {f : FrameID} (h : (n, f) ∈ l) :
    (l.filter (fun e => e.1 ≠ n)).map (·.2) = (l.map (·.2)).erase f := by
  induction l with
  | nil => simp at h
  | cons e l ih =>
    simp only [List.map_cons, List.nodup_cons] at hn hf
    rcases List.mem_cons.1 h with rfl | h'
    · have hrest : l.filter (fun e => e.1 ≠ n) = l := by
        rw [List.filter_eq_self]
        intro e he
        have : e.1 ≠ n := fun hc => hn.1 (List.mem_map.2 ⟨e, he, hc⟩)
        simpa using this
      rw [List.filter_cons_of_neg (by simp), hrest, List.map_cons, List.erase_cons_head]
    · have hne : e.1 ≠ n := fun hc => hn.1 (List.mem_map.2 ⟨(n, f), h', hc.symm⟩)
      have hfe : e.2 ≠ f := fun hc => hf.1 (List.mem_map.2 ⟨(n, f), h', hc.symm⟩)
      rw [List.filter_cons_of_pos (by simpa using hne), List.map_cons, List.map_cons,
        List.erase_cons_tail (by simpa using hfe), ih hn.2 hf.2 h']

theorem remove_valid {r : LRUReplacer} (h : Valid r) (f : FrameID) : Valid (r.remove f) := by
  unfold remove
  cases hm : r.lruMap f with
  | none => exact h
  | some it =>
    have hmem := (h.map_iff f it).1 hm
    refine ⟨?_, ?_, fun g n => ?_, fun e he => h.nodes_lt e (List.mem_filter.1 he).1⟩
    · rw [frames, filter_node_eq_erase _ h.nodes_nodup h.frames_nodup hmem]
      exact h.frames_nodup.erase f
    · exact h.nodes_nodup.sublist ((List.filter_sublist).map _)
    · simp only [List.mem_filter, decide_eq_true_eq]
      by_cases hg : g = f
      · subst hg
        simp only [Function.update_self, reduceCtorEq, false_iff, not_and, not_not]
        intro hn
        have := (h.map_iff g n).2 hn
        rw [hm] at this
        exact (Option.some.inj this).symm
      · rw [Function.update_of_ne hg, h.map_iff]
        refine ⟨fun hn => ⟨hn, fun hc => hg ?_⟩, And.left⟩
        have := List.inj_on_of_nodup_map h.nodes_nodup hn hmem hc
        exact congrArg Prod.snd this

theorem remove_frames {r : LRUReplacer} (h : Valid r) (f : FrameID) : (r.remove f).frames = r.frames.erase f := by
  unfold remove
  cases hm : r.lruMap f with
  | none =>
    have : f ∉ r.frames := by
      rw [← exist_iff h, exist, hm]; simp
    rw [List.erase_of_not_mem this]
  | some it => exact filter_node_eq_erase _ h.nodes_nodup h.frames_nodup ((h.map_iff f it).1 hm)

theorem pin_valid {r : LRUReplacer} (h : Valid r) (f : FrameID) : Valid (r.pin f) := remove_valid h f

theorem pin_frames {r : LRUReplacer} (h : Valid r) (f : FrameID) : (r.pin f).frames = r.frames.erase f :=
  remove_frames h f

theorem unpin_frames {r : LRUReplacer} (h : Valid r) (f : FrameID) :
    (r.unpin f).frames = if f ∈ r.frames then r.frames else f :: r.frames := by
  unfold unpin
  by_cases hf : f ∈ r.frames
  · rw [if_pos ((exist_iff h f).2 hf), if_pos hf]
  · rw [if_neg (fun hc => hf ((exist_iff h f).1 hc)), if_neg hf]
    rfl

theorem unpin_valid {r : LRUReplacer} (h : Valid r) (f : FrameID) : Valid (r.unpin f) := by
  by_cases hf : f ∈ r.frames
  · rw [unpin, if_pos ((exist_iff h f).2 hf)]; exact h
  · rw [unpin, if_neg (fun hc => hf ((exist_iff h f).1 hc))]
    have hfresh : ∀ e ∈ r.lruCache, e.1 ≠ r.nextNode := fun e he => Nat.ne_of_lt (h.nodes_lt e he)
    refine ⟨?_, ?_, fun g n => ?_, fun e he => ?_⟩
    · exact List.nodup_cons.2 ⟨hf, h.frames_nodup⟩
    · refine List.nodup_cons.2 ⟨fun hc => ?_, h.nodes_nodup⟩
      obtain ⟨e, he, hen⟩ := List.mem_map.1 hc
      exact hfresh e he hen
    · simp only [List.mem_cons, Prod.mk.injEq]
      by_cases hg : g = f
      · subst hg
        simp only [Function.update_self, Option.some.injEq, and_true]
        refine ⟨fun hn => .inl hn.symm, ?_⟩
        rintro (hn | hn)
        · exact hn.symm
        · exact absurd (mem_frames.2 ⟨n, hn⟩) hf
      · rw [Function.update_of_ne hg, h.map_iff]
        simp [hg]
    · rcases List.mem_cons.1 he with rfl | he
      · simp
      · exact Nat.lt_succ_of_lt (h.nodes_lt e he)

/-- `victim` takes the frame at the back of the list, the one unpinned longest
ago, and gives nothing exactly on an empty list. -/
theorem victim_spec {r : LRUReplacer} (h : Valid r) :
    match r.victim with
    | none => r.frames = []
    | some (f, r') => Valid r' ∧ r.frames = r'.frames ++ [f] := by
  unfold victim
  cases hl : r.lruCache.getLast? with
  | none => simpa [frames] using hl
  | some e =>
    refine ⟨remove_valid h _, ?_⟩
    obtain ⟨l, hl'⟩ := List.getLast?_eq_some_iff.1 hl
    have hfr : r.frames = l.map (·.2) ++ [e.2] := by rw [frames, hl']; simp
    have hnd := h.frames_nodup
    rw [hfr] at hnd
    have hnot : e.2 ∉ l.map (·.2) := by
      have := (List.nodup_append.1 hnd).2.2
      exact fun hc => this _ hc _ (by simp) rfl
    rw [remove_frames h, hfr, List.erase_append_right _ hnot]
    simp

end LRUReplacer

end MisakiDB
