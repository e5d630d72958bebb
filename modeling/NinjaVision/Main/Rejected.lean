/-
# NinjaVision.Main.Rejected — an iteration over a table that may reject its Puts.

Before the iteration the table holds anything, of any type, also at the keys of `main`. A Put on an
entry of another type returns false and changes nothing, and `main` does not look at what a Put
returns. So each key is decided by itself (`entry_after_iteration`): the new value where the type
fits, the old entry where it does not.

`rejected_puts` collects what that means for the two arrays. They change together unless exactly one
of the two keys is held with another type, as in `half_updated`. A client that reads both as number
arrays gets, at each key, the arrays of the new frame or its own default.
-/
import NinjaVision.Main.Publication

namespace NinjaVision

open Lib (ExactDouble)

variable {K : Type*} [Field K] [LinearOrder K]

/-- Both arrays are the new ones, or neither entry changed. -/
def AllOrNothing (before after : NetworkTable K) (t : Targets K) : Prop :=
  (after "distances" = some (.doubleArray t.distances) ∧
    after "azimuths" = some (.doubleArray t.azimuths)) ∨
    (after "distances" = before "distances" ∧ after "azimuths" = before "azimuths")

/-- A run of one completed iteration makes the three Puts of its frame. -/
theorem puts_of_iteration (lib : Libraries K) {s₀ : Vision K} (hpos : s₀.position = .loopHead)
    {events : List Event} {ir : Image UInt8}
    (hframes : frames ((process lib).trace s₀ events) = [ir])
    (hend : ((process lib).run s₀ events).position = .loopHead) :
    puts ((process lib).trace s₀ events) = framePuts lib s₀.randCalls ir := by
  rw [puts_at_loopHead lib hpos hend, hframes, published, published, List.append_nil]

theorem framePuts_nodup (lib : Libraries K) (n : ℕ) (ir : Image UInt8) :
    ((framePuts lib n ir).map Prod.fst).Nodup := by
  show ["watchdog", "distances", "azimuths"].Nodup
  decide

theorem distances_mem_framePuts (lib : Libraries K) (n : ℕ) (ir : Image UInt8) :
    putNumberArray "distances" (reference lib ir).distances ∈ framePuts lib n ir := by
  simp [framePuts]

theorem azimuths_mem_framePuts (lib : Libraries K) (n : ℕ) (ir : Image UInt8) :
    putNumberArray "azimuths" (reference lib ir).azimuths ∈ framePuts lib n ir := by
  simp [framePuts]

/-- **An array entry after an iteration** is the new array where a number array fits, and the old
entry where it does not. -/
theorem entry_after_iteration (lib : Libraries K) (t₀ : NetworkTable K) {s₀ : Vision K}
    (hpos : s₀.position = .loopHead) {events : List Event} {ir : Image UInt8}
    (hframes : frames ((process lib).trace s₀ events) = [ir])
    (hend : ((process lib).run s₀ events).position = .loopHead) {key : Key}
    {a : List (ExactDouble K)} (hput : putNumberArray key a ∈ framePuts lib s₀.randCalls ir) :
    (t₀.Fits Value.type key .doubleArray →
      tableAfter lib t₀ s₀ events key = some (.doubleArray a)) ∧
      (¬ t₀.Fits Value.type key .doubleArray → tableAfter lib t₀ s₀ events key = t₀ key) := by
  have hentry : tableAfter lib t₀ s₀ events key
      = (t₀.put Value.type key (.doubleArray a)).2 key := by
    rw [tableAfter, puts_of_iteration lib hpos hframes hend]
    exact Lib.Table.putAll_of_mem Value.type (framePuts_nodup lib _ ir) hput
  constructor
  · intro hfit
    rw [hentry]
    exact Lib.Table.put_self Value.type hfit
  · intro hno
    rw [hentry, Lib.Table.put_of_not_fits Value.type hno]

/-- What a client reads at such an entry: the new array, or its own default where the type does not
fit. -/
theorem read_after_iteration (lib : Libraries K) (t₀ : NetworkTable K) {s₀ : Vision K}
    (hpos : s₀.position = .loopHead) {events : List Event} {ir : Image UInt8}
    (hframes : frames ((process lib).trace s₀ events) = [ir])
    (hend : ((process lib).run s₀ events).position = .loopHead) {key : Key}
    {a : List (ExactDouble K)} (hput : putNumberArray key a ∈ framePuts lib s₀.randCalls ir)
    (defaultValue : List (ExactDouble K)) :
    getNumberArray (tableAfter lib t₀ s₀ events) key defaultValue = a ∨
      getNumberArray (tableAfter lib t₀ s₀ events) key defaultValue = defaultValue := by
  obtain ⟨hnew, hold⟩ := entry_after_iteration lib t₀ hpos hframes hend hput
  by_cases hfit : t₀.Fits Value.type key .doubleArray
  · left
    exact getNumberArray_of_entry (hnew hfit) defaultValue
  · right
    apply getNumberArray_of_not_fits
    -- the entry is as it was before the iteration, so it is still of another type
    unfold Lib.Table.Fits
    rw [hold hfit]
    exact hfit

/-- **Rejected Puts**: for every table before a completed iteration, each array entry is replaced by
the new frame's where its type fits and is unchanged where it does not; so the two arrays change
together when both types fit or neither does. A client that reads both as number arrays gets at each
key the new frame's array or its own default. -/
theorem rejected_puts (lib : Libraries K) (t₀ : NetworkTable K) {s₀ : Vision K}
    (hpos : s₀.position = .loopHead) {events : List Event} {ir : Image UInt8}
    (hframes : frames ((process lib).trace s₀ events) = [ir])
    (hend : ((process lib).run s₀ events).position = .loopHead) :
    (t₀.Fits Value.type "distances" .doubleArray →
      tableAfter lib t₀ s₀ events "distances" = some (.doubleArray (reference lib ir).distances)) ∧
    (¬ t₀.Fits Value.type "distances" .doubleArray →
      tableAfter lib t₀ s₀ events "distances" = t₀ "distances") ∧
    (t₀.Fits Value.type "azimuths" .doubleArray →
      tableAfter lib t₀ s₀ events "azimuths" = some (.doubleArray (reference lib ir).azimuths)) ∧
    (¬ t₀.Fits Value.type "azimuths" .doubleArray →
      tableAfter lib t₀ s₀ events "azimuths" = t₀ "azimuths") ∧
    ((t₀.Fits Value.type "distances" .doubleArray ↔ t₀.Fits Value.type "azimuths" .doubleArray) →
      AllOrNothing t₀ (tableAfter lib t₀ s₀ events) (reference lib ir)) ∧
    ∀ defaultDistances defaultAzimuths,
      (getNumberArray (tableAfter lib t₀ s₀ events) "distances" defaultDistances
        = (reference lib ir).distances ∨
        getNumberArray (tableAfter lib t₀ s₀ events) "distances" defaultDistances
          = defaultDistances) ∧
      (getNumberArray (tableAfter lib t₀ s₀ events) "azimuths" defaultAzimuths
        = (reference lib ir).azimuths ∨
        getNumberArray (tableAfter lib t₀ s₀ events) "azimuths" defaultAzimuths
          = defaultAzimuths) := by
  have hd := distances_mem_framePuts lib s₀.randCalls ir
  have ha := azimuths_mem_framePuts lib s₀.randCalls ir
  obtain ⟨hdNew, hdOld⟩ := entry_after_iteration lib t₀ hpos hframes hend hd
  obtain ⟨haNew, haOld⟩ := entry_after_iteration lib t₀ hpos hframes hend ha
  refine ⟨hdNew, hdOld, haNew, haOld, ?_, ?_⟩
  · intro hboth
    by_cases hfit : t₀.Fits Value.type "distances" .doubleArray
    · exact Or.inl ⟨hdNew hfit, haNew (hboth.mp hfit)⟩
    · exact Or.inr ⟨hdOld hfit, haOld fun hfit' => hfit (hboth.mpr hfit')⟩
  · intro defaultDistances defaultAzimuths
    exact ⟨read_after_iteration lib t₀ hpos hframes hend hd defaultDistances,
      read_after_iteration lib t₀ hpos hframes hend ha defaultAzimuths⟩

/-- A table in which another client holds "azimuths" as a string. -/
def stringAzimuths : NetworkTable ℝ :=
  fun key => if key = "azimuths" then some (.string "off") else none

theorem stringAzimuths_fits : stringAzimuths.Fits Value.type "distances" .doubleArray := by
  intro old hold
  simp [stringAzimuths] at hold

theorem stringAzimuths_not_fits : ¬ stringAzimuths.Fits Value.type "azimuths" .doubleArray := by
  intro h
  have hty := h (.string "off") (by simp [stringAzimuths])
  simp [Value.type] at hty

/-- The law at that table and a frame with a target: the new distances beside the old string. -/
theorem rejected_puts_string :
    tableAfter uLibraries stringAzimuths (started (fun _ => 0) uBuffers) (iteration 1) "distances"
        = some (.doubleArray (reference uLibraries uFrame).distances) ∧
      tableAfter uLibraries stringAzimuths (started (fun _ => 0) uBuffers) (iteration 1) "azimuths"
        = stringAzimuths "azimuths" := by
  have hframes : frames ((process uLibraries).trace (started (fun _ => 0) uBuffers) (iteration 1))
      = [uFrame] :=
    rfl
  obtain ⟨hdNew, _, _, haOld, _⟩ := rejected_puts uLibraries stringAzimuths rfl hframes rfl
  exact ⟨hdNew stringAzimuths_fits, haOld stringAzimuths_not_fits⟩

/-- **A half-updated table**: with "azimuths" held as a string, a completed iteration replaces the
distances and leaves the azimuths. -/
theorem half_updated :
    frames ((process uLibraries).trace (started (fun _ => 0) uBuffers) (iteration 1)) = [uFrame] ∧
    ((process uLibraries).run (started (fun _ => 0) uBuffers) (iteration 1)).position = .loopHead ∧
    ¬ AllOrNothing stringAzimuths
      (tableAfter uLibraries stringAzimuths (started (fun _ => 0) uBuffers) (iteration 1))
      (reference uLibraries uFrame) := by
  have hframes : frames ((process uLibraries).trace (started (fun _ => 0) uBuffers) (iteration 1))
      = [uFrame] :=
    rfl
  refine ⟨hframes, rfl, ?_⟩
  have hd := (entry_after_iteration uLibraries stringAzimuths rfl hframes rfl
    (distances_mem_framePuts uLibraries _ uFrame)).1 stringAzimuths_fits
  have ha := (entry_after_iteration uLibraries stringAzimuths rfl hframes rfl
    (azimuths_mem_framePuts uLibraries _ uFrame)).2 stringAzimuths_not_fits
  rintro (⟨_, hnew⟩ | ⟨hold, _⟩)
  · rw [ha] at hnew
    simp [stringAzimuths] at hnew
  · rw [hd] at hold
    simp [stringAzimuths] at hold

end NinjaVision
