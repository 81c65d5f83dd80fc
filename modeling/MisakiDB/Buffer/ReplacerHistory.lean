import MisakiDB.Buffer.LRUReplacer
import Mathlib.Data.Set.Card
/-!
# The replacer and the calls made on it

Which frame `victim` takes is a statement about all calls made before. `Stays` and
`Entered` say it about the list of events alone, and `Ordered` ties that list to the
replacer: its frames, back to front, are in the order in which they entered.
-/

namespace MisakiDB.LRUReplacer

inductive Call
  | unpin (frameID : FrameID)
  | pin (frameID : FrameID)
  | victim

/-- A call that was made, `victim` with the frame it found. -/
inductive Event
  | unpinned (frameID : FrameID)
  | pinned (frameID : FrameID)
  | evicted (frameID : FrameID)
  | noVictim
  deriving DecidableEq

def Call.perform (r : LRUReplacer) : Call → Event × LRUReplacer
  | unpin frameID => (.unpinned frameID, r.unpin frameID)
  | pin frameID => (.pinned frameID, r.pin frameID)
  | victim =>
    match r.victim with
    | some (frameID, r') => (.evicted frameID, r')
    | none => (.noVictim, r)

structure Traced where
  events : List Event
  replacer : LRUReplacer

def Traced.call (s : Traced) (c : Call) : Traced :=
  ⟨s.events ++ [(c.perform s.replacer).1], (c.perform s.replacer).2⟩

/-- Calls on a new replacer. -/
def traced (cs : List Call) : Traced := cs.foldl Traced.call ⟨[], empty⟩

/-! ## What the events say -/

/-- Takes the frame out of the set. -/
def Event.Removes (f : FrameID) (e : Event) : Prop := e = .pinned f ∨ e = .evicted f

/-- The `i`th event unpinned the frame, and none since has pinned or evicted it. -/
def Stays (h : List Event) (f : FrameID) (i : Nat) : Prop :=
  h[i]? = some (.unpinned f) ∧ ∀ j e, i < j → h[j]? = some e → ¬ e.Removes f

def InSet (h : List Event) (f : FrameID) : Prop := ∃ i, Stays h f i

/-- The frame is in the set since the `i`th event, an `unpin` that found it absent. -/
def Entered (h : List Event) (f : FrameID) (i : Nat) : Prop := Stays h f i ∧ ¬ InSet (h.take i) f

section Events
variable {h : List Event} {f : FrameID} {i : Nat} {e : Event}

theorem Stays.lt (hs : Stays h f i) : i < h.length := (List.getElem?_eq_some_iff.1 hs.1).1

theorem stays_append : Stays (h ++ [e]) f i ↔ Stays h f i ∧ ¬ e.Removes f ∨ i = h.length ∧ e = .unpinned f := by
  constructor
  · rintro ⟨hi, hlater⟩
    rcases Nat.lt_trichotomy i h.length with hlt | rfl | hlt
    · left
      rw [List.getElem?_append_left hlt] at hi
      refine ⟨⟨hi, fun j e' hj he' => hlater j e' hj ?_⟩, hlater h.length e hlt (by simp)⟩
      rw [List.getElem?_append_left (List.getElem?_eq_some_iff.1 he').1]
      exact he'
    · right
      simpa using hi
    · rw [List.getElem?_eq_none (by simpa using hlt)] at hi
      cases hi
  · rintro (⟨hs, he⟩ | ⟨rfl, rfl⟩)
    · refine ⟨by rw [List.getElem?_append_left hs.lt, hs.1], fun j e' hj he' => ?_⟩
      by_cases hlt : j < h.length
      · rw [List.getElem?_append_left hlt] at he'
        exact hs.2 j e' hj he'
      · obtain rfl : e' = e := by
          have := (List.getElem?_eq_some_iff.1 he').1
          obtain rfl : j = h.length := by
            rw [List.length_append, List.length_singleton] at this
            omega
          simpa using he'.symm
        exact he
    · refine ⟨by simp, fun j e' hj he' => ?_⟩
      rw [List.getElem?_eq_none (by simpa using hj)] at he'
      cases he'

/-- An earlier stay that lasted till a later one lasts as long. -/
theorem Stays.of_take (hs : Stays h f i) {j : Nat} (hj : Stays (h.take i) f j) : Stays h f j := by
  have hji : j < i := (List.length_take_le i h).trans_lt' hj.lt
  refine ⟨by rw [← List.getElem?_take_of_lt hji, hj.1], fun k e hk he => ?_⟩
  rcases Nat.lt_trichotomy k i with hlt | rfl | hlt
  · exact hj.2 k e hk (by rw [List.getElem?_take_of_lt hlt, he])
  · obtain rfl := Option.some.inj (hs.1.symm.trans he)
    simp [Event.Removes]
  · exact hs.2 k e hlt he

theorem inSet_iff : InSet h f ↔ ∃ i, Entered h f i := by
  constructor
  · rintro ⟨i, hi⟩
    induction i using Nat.strong_induction_on with
    | _ i ih =>
      by_cases hin : InSet (h.take i) f
      · obtain ⟨j, hj⟩ := hin
        exact ih j ((List.length_take_le i h).trans_lt' hj.lt) (hi.of_take hj)
      · exact ⟨i, hi, hin⟩
  · rintro ⟨i, hi, -⟩
    exact ⟨i, hi⟩

theorem entered_append : Entered (h ++ [e]) f i ↔
    Entered h f i ∧ ¬ e.Removes f ∨ i = h.length ∧ e = .unpinned f ∧ ¬ InSet h f := by
  unfold Entered
  rw [stays_append]
  constructor
  · rintro ⟨⟨hs, he⟩ | ⟨rfl, rfl⟩, hin⟩
    · rw [List.take_append_of_le_length hs.lt.le] at hin
      exact .inl ⟨⟨hs, hin⟩, he⟩
    · rw [List.take_left] at hin
      exact .inr ⟨rfl, rfl, hin⟩
  · rintro (⟨⟨hs, hin⟩, he⟩ | ⟨rfl, rfl, hin⟩)
    · rw [List.take_append_of_le_length hs.lt.le]
      exact ⟨.inl ⟨hs, he⟩, hin⟩
    · rw [List.take_left]
      exact ⟨.inr ⟨rfl, rfl⟩, hin⟩

end Events

/-! ## What the replacer holds -/

/-- The frames, front to back, entered one before the other. -/
structure Ordered (s : Traced) : Prop where
  valid : Valid s.replacer
  times : ∃ ts : List (FrameID × Nat), ts.map Prod.fst = s.replacer.frames ∧ ts.Pairwise (fun a b => b.2 < a.2) ∧
    ∀ f i, (f, i) ∈ ts ↔ Entered s.events f i

section
variable {s : Traced} {f : FrameID}

theorem Ordered.mem_frames (h : Ordered s) (f : FrameID) : f ∈ s.replacer.frames ↔ InSet s.events f := by
  obtain ⟨ts, hts, -, hmem⟩ := h.times
  rw [← hts, inSet_iff, List.mem_map]
  constructor
  · rintro ⟨⟨g, i⟩, hg, rfl⟩
    exact ⟨i, (hmem g i).1 hg⟩
  · rintro ⟨i, hi⟩
    exact ⟨(f, i), (hmem f i).2 hi, rfl⟩

/-- A frame goes, from wherever it is. -/
theorem Ordered.erase (h : Ordered s) {r : LRUReplacer} {e : Event} (hr : Valid r)
    (hf : r.frames = s.replacer.frames.erase f)
    (he : ∀ g, e.Removes g ↔ g = f) (hu : ∀ g, e ≠ .unpinned g) : Ordered ⟨s.events ++ [e], r⟩ := by
  obtain ⟨ts, hts, hpair, hmem⟩ := h.times
  refine ⟨hr, ts.filter fun t => t.1 != f, ?_, hpair.filter _, fun g i => ?_⟩
  · rw [hf, h.valid.frames_nodup.erase_eq_filter, ← hts, List.filter_map]
    rfl
  · rw [entered_append, he, List.mem_filter, hmem]
    simp [hu]

theorem Ordered.unpin (h : Ordered s) (f : FrameID) : Ordered (s.call (.unpin f)) := by
  obtain ⟨ts, hts, hpair, hmem⟩ := h.times
  have hremoves : ∀ g, ¬ (Event.unpinned f).Removes g := fun g => by simp [Event.Removes]
  refine ⟨unpin_valid h.valid f, ?_⟩
  show ∃ ts : List (FrameID × Nat), ts.map Prod.fst = (s.replacer.unpin f).frames ∧ _
  rw [unpin_frames h.valid]
  by_cases hf : f ∈ s.replacer.frames
  · -- the frame is there, and keeps its place
    refine ⟨ts, by rw [if_pos hf, hts], hpair, fun g i => ?_⟩
    show _ ↔ Entered (s.events ++ [.unpinned f]) g i
    rw [entered_append, hmem, and_iff_left (hremoves g), or_iff_left]
    rintro ⟨-, heq, hg⟩
    obtain rfl := Event.unpinned.inj heq
    exact hg ((h.mem_frames f).1 hf)
  · refine ⟨(f, s.events.length) :: ts, by rw [if_neg hf, List.map_cons, hts], ?_, fun g i => ?_⟩
    · refine List.pairwise_cons.2 ⟨fun t ht => ?_, hpair⟩
      exact ((hmem t.1 t.2).1 ht).1.lt
    · show _ ↔ Entered (s.events ++ [.unpinned f]) g i
      rw [entered_append, ← hmem, and_iff_left (hremoves g), List.mem_cons, or_comm]
      apply or_congr_right
      rw [Prod.mk.injEq]
      constructor
      · rintro ⟨rfl, rfl⟩
        exact ⟨rfl, rfl, fun hin => hf ((h.mem_frames g).2 hin)⟩
      · rintro ⟨rfl, heq, -⟩
        exact ⟨(Event.unpinned.inj heq).symm, rfl⟩

theorem Ordered.pin (h : Ordered s) (f : FrameID) : Ordered (s.call (.pin f)) := by
  have hremoves : ∀ g, (Event.pinned f).Removes g ↔ g = f := fun g => by simp [Event.Removes, eq_comm]
  exact h.erase (pin_valid h.valid f) (pin_frames h.valid f) hremoves fun g => nofun

/-- The frame at the back entered first. -/
theorem Ordered.oldest (h : Ordered s) {r' : LRUReplacer} (hv : s.replacer.victim = some (f, r')) :
    Valid r' ∧ r'.frames = s.replacer.frames.erase f ∧
      ∃ i, Entered s.events f i ∧ ∀ g j, Entered s.events g j → g = f ∨ i < j := by
  obtain ⟨ts, hts, hpair, hmem⟩ := h.times
  have hspec := victim_spec h.valid
  rw [hv] at hspec
  obtain ⟨hvalid, hframes⟩ := hspec
  have hnodup := h.valid.frames_nodup
  rw [hframes] at hts hnodup
  obtain ⟨us, ⟨g, i⟩, rfl⟩ : ∃ us t, ts = us ++ [t] := by
    apply (List.eq_nil_or_concat' ts).resolve_left
    rintro rfl
    simp at hts
  rw [List.map_append, List.map_singleton] at hts
  obtain ⟨hus, hg⟩ := List.append_inj' hts rfl
  obtain rfl : g = f := by simpa using hg
  have hlast : g ∉ r'.frames := fun hmem => (List.nodup_append.1 hnodup).2.2 g hmem g (by simp) rfl
  refine ⟨hvalid, ?_, i, (hmem g i).1 (by simp), fun k j hj => ?_⟩
  · rw [hframes, List.erase_append_right _ hlast]
    simp
  · rcases List.mem_append.1 ((hmem k j).2 hj) with hk | hk
    · exact .inr ((List.pairwise_append.1 hpair).2.2 (k, j) hk (g, i) (by simp))
    · exact .inl (by simpa using congrArg Prod.fst (List.mem_singleton.1 hk))

theorem Ordered.victim (h : Ordered s) : Ordered (s.call .victim) := by
  unfold Traced.call Call.perform
  cases hv : s.replacer.victim with
  | none =>
    obtain ⟨ts, hts, hpair, hmem⟩ := h.times
    refine ⟨h.valid, ts, hts, hpair, fun f i => ?_⟩
    rw [entered_append, hmem]
    simp [Event.Removes]
  | some t =>
    obtain ⟨f, r'⟩ := t
    obtain ⟨hvalid, hframes, -⟩ := h.oldest hv
    have hremoves : ∀ g, (Event.evicted f).Removes g ↔ g = f := fun g => by simp [Event.Removes, eq_comm]
    exact h.erase hvalid hframes hremoves fun g => nofun

theorem Ordered.call (h : Ordered s) (c : Call) : Ordered (s.call c) := by
  cases c with
  | unpin f => exact h.unpin f
  | pin f => exact h.pin f
  | victim => exact h.victim

theorem ordered_new : Ordered ⟨[], empty⟩ :=
  ⟨valid_empty, [], rfl, .nil, fun f i => by simp [Entered, Stays]⟩

theorem traced_ordered (cs : List Call) : Ordered (traced cs) := by
  suffices ∀ s, Ordered s → Ordered (cs.foldl Traced.call s) from this _ ordered_new
  induction cs with
  | nil => exact fun s hs => hs
  | cons c cs ih => exact fun s hs => ih _ (hs.call c)

end

/-- The replacer is the set of the frames that have stayed since they were unpinned, and
`victim` takes the one that entered first. -/
structure IsOrderedSet (h : List Event) (r : LRUReplacer) : Prop where
  valid : Valid r
  frames : ∀ f, f ∈ r.frames ↔ InSet h f
  no_victim : r.victim = none ↔ ∀ f, ¬ InSet h f
  victim : ∀ f r', r.victim = some (f, r') → Valid r' ∧ (∀ g, g ∈ r'.frames ↔ g ∈ r.frames ∧ g ≠ f) ∧
    ∃ i, Entered h f i ∧ ∀ g j, Entered h g j → g = f ∨ i < j
  unpin_again : ∀ f, InSet h f → r.unpin f = r
  pin_absent : ∀ f, ¬ InSet h f → r.pin f = r
  size : r.size = {f | InSet h f}.ncard

/-- Whatever calls are made on a new replacer. -/
theorem evicts_oldest (cs : List Call) : IsOrderedSet (traced cs).events (traced cs).replacer := by
  have h := traced_ordered cs
  have hexist : ∀ f, (traced cs).replacer.exist f = true ↔ InSet (traced cs).events f := fun f => by
    rw [exist_iff h.valid, h.mem_frames]
  refine ⟨h.valid, h.mem_frames, ?_, fun f r' hv => ?_, fun f hf => ?_, fun f hf => ?_, ?_⟩
  · rw [← forall_congr' fun f => not_congr (h.mem_frames f), ← List.eq_nil_iff_forall_not_mem]
    have hspec := victim_spec h.valid
    cases hv : (traced cs).replacer.victim with
    | none =>
      rw [hv] at hspec
      exact iff_of_true rfl hspec
    | some t =>
      rw [hv] at hspec
      apply iff_of_false (Option.some_ne_none t)
      rw [hspec.2]
      simp
  · obtain ⟨hvalid, hframes, holdest⟩ := h.oldest hv
    refine ⟨hvalid, fun g => ?_, holdest⟩
    rw [hframes, h.valid.frames_nodup.mem_erase_iff, and_comm]
  · rw [unpin, if_pos ((hexist f).2 hf)]
  · have hnone : (traced cs).replacer.lruMap f = none := by
      have := mt (hexist f).1 hf
      simpa [exist] using this
    rw [pin, remove, hnone]
  · have hset : {f | InSet (traced cs).events f} = ((traced cs).replacer.frames.toFinset : Set FrameID) := by
      ext f
      simp [h.mem_frames]
    rw [hset, Set.ncard_coe_finset, List.toFinset_card_of_nodup h.valid.frames_nodup, size, frames, List.length_map]

example : (traced [.unpin 1, .unpin 2, .unpin 1, .victim]).events =
    [.unpinned 1, .unpinned 2, .unpinned 1, .evicted 1] := by decide

end MisakiDB.LRUReplacer
