/-
# NinjaVision.Main.Publication — what the table holds during a run.

`main` writes its three keys one after the other, so the table is read off the Puts of the run:
replacements when they all succeed. `sourced_after` says which consumed frame each entry is of, at
every state from the first completed iteration on; it is one case per position of `main`.

* `publication_law` — over whole runs: three Puts for each fresh poll and none otherwise; at a loop
  head the two arrays are the reference of the last consumed frame, whatever the history before it.
* `consistency_law` — between the Puts of an iteration: "azimuths" is of the last completed one, and
  "distances" and "watchdog" are ahead of it by one frame while the Puts after theirs are due.
* `mixed_frames` — a client that reads between the last two Puts pairs the distances of one frame
  with the azimuths of another. The loop has no mechanism that would prevent it.
-/
import NinjaVision.Main.Loop

namespace NinjaVision

open Lib (ExactDouble)

variable {K : Type*} [Field K] [LinearOrder K]

/-! ## §1 — the types of the Puts. -/

/-- The type `main` puts a key with. -/
def keyType (key : Key) : ValueType := if key = "watchdog" then .double else .doubleArray

/-- The keys of `main`. -/
def mainKeys : List Key := ["watchdog", "distances", "azimuths"]

theorem mem_framePuts (lib : Libraries K) (n : ℕ) (ir : Image UInt8) {p : Put K}
    (hp : p ∈ framePuts lib n ir) : p.1 ∈ mainKeys ∧ p.2.type = keyType p.1 := by
  simp only [framePuts, List.mem_cons, List.not_mem_nil, or_false] at hp
  rcases hp with rfl | rfl | rfl
  · exact ⟨List.mem_cons_self, rfl⟩
  · exact ⟨List.mem_cons_of_mem _ List.mem_cons_self, rfl⟩
  · exact ⟨List.mem_cons_of_mem _ (List.mem_cons_of_mem _ List.mem_cons_self), rfl⟩

theorem mem_published (lib : Libraries K) (n : ℕ) (irs : List (Image UInt8)) {p : Put K}
    (hp : p ∈ published lib n irs) : p.1 ∈ mainKeys ∧ p.2.type = keyType p.1 := by
  induction irs generalizing n with
  | nil => exact absurd hp List.not_mem_nil
  | cons ir irs ih =>
      rcases List.mem_append.mp hp with hp | hp
      · exact mem_framePuts lib n ir hp
      · exact ih (n + 1) hp

/-- Every Put of a run is on one of the three keys, with the type of that key. -/
theorem mem_puts (lib : Libraries K) {s₀ : Vision K} (hpos : s₀.position = .loopHead)
    {events : List Event} {p : Put K} (hp : p ∈ puts ((process lib).trace s₀ events)) :
    p.1 ∈ mainKeys ∧ p.2.type = keyType p.1 := by
  have hlaw := (run_law lib hpos events).1
  apply mem_published lib s₀.randCalls (frames ((process lib).trace s₀ events))
  rw [← hlaw]
  exact List.mem_append_left _ hp

/-- A table without entries of other types at the three keys. -/
def Writable (t₀ : NetworkTable K) : Prop := ∀ key ∈ mainKeys, t₀.Fits Value.type key (keyType key)

/-- On a writable table every Put of a run succeeds. -/
theorem allSucceed_of_writable (lib : Libraries K) {t₀ : NetworkTable K} (h : Writable t₀)
    {s₀ : Vision K} (hpos : s₀.position = .loopHead) (events : List Event) :
    t₀.AllSucceed Value.type (puts ((process lib).trace s₀ events)) := by
  apply Lib.Table.allSucceed_of_fits Value.type keyType
  · intro p hp
    exact (mem_puts lib hpos hp).2
  · intro p hp
    exact h p.1 (mem_puts lib hpos hp).1

/-! ## §2 — the values put at a key. -/

/-- The value that the call number `k` of `rand()` is put as. -/
def watchdogValue (lib : Libraries K) (k : ℕ) : Value K := .double (.finite (lib.rand k : ℕ))

/-- What a key is put as for the frame number `n` of a process. -/
def entryOf (lib : Libraries K) (key : Key) (n : ℕ) (ir : Image UInt8) : Value K :=
  if key = "watchdog" then watchdogValue lib n
  else if key = "distances" then .doubleArray (reference lib ir).distances
  else .doubleArray (reference lib ir).azimuths

theorem valuesAt_framePuts (lib : Libraries K) {key : Key} (hkey : key ∈ mainKeys) (n : ℕ)
    (ir : Image UInt8) : Lib.Table.valuesAt key (framePuts lib n ir) = [entryOf lib key n ir] := by
  simp only [mainKeys, List.mem_cons, List.not_mem_nil, or_false] at hkey
  rcases hkey with rfl | rfl | rfl
  all_goals simp [Lib.Table.valuesAt, framePuts, putNumber, putNumberArray, entryOf, watchdogValue]

/-- Consecutive frames put one value each. -/
theorem valuesAt_published (lib : Libraries K) {key : Key} (hkey : key ∈ mainKeys) (n : ℕ)
    (irs : List (Image UInt8)) :
    Lib.Table.valuesAt key (published lib n irs)
      = irs.mapIdx fun i ir => entryOf lib key (n + i) ir := by
  induction irs generalizing n with
  | nil => rfl
  | cons ir irs ih =>
      rw [published, Lib.Table.valuesAt_append, valuesAt_framePuts lib hkey, ih, List.mapIdx_cons]
      simp only [Nat.add_zero, Nat.add_assoc, Nat.add_comm 1, List.cons_append, List.nil_append]

/-- At a loop head behind a consumed frame, an entry is of that frame, if its first value had the
type. -/
theorem entry_loopHead (lib : Libraries K) {t₀ : NetworkTable K} {key : Key} (hkey : key ∈ mainKeys)
    (hfit : t₀.Fits Value.type key (keyType key)) {s₀ : Vision K} (hpos : s₀.position = .loopHead)
    (hcalls : s₀.randCalls = 0) {events : List Event}
    (hend : ((process lib).run s₀ events).position = .loopHead) {irs : List (Image UInt8)}
    {ir : Image UInt8} (hframes : frames ((process lib).trace s₀ events) = irs ++ [ir]) :
    tableAfter lib t₀ s₀ events key = some (entryOf lib key irs.length ir) := by
  have htype : ∀ p ∈ puts ((process lib).trace s₀ events), p.1 = key → p.2.type = keyType key := by
    rintro p hp rfl
    exact (mem_puts lib hpos hp).2
  rw [tableAfter, Lib.Table.putAll_entry Value.type htype hfit, puts_at_loopHead lib hpos hend,
    hframes, hcalls, valuesAt_published lib hkey, List.mapIdx_concat, List.getLast?_concat]
  simp only [Nat.zero_add, Option.some_or]

/-- An entry whose first value has another type keeps it. -/
theorem entry_kept (lib : Libraries K) {t₀ : NetworkTable K} {key : Key}
    (hfit : ¬ t₀.Fits Value.type key (keyType key)) {s₀ : Vision K}
    (hpos : s₀.position = .loopHead) (events : List Event) :
    tableAfter lib t₀ s₀ events key = t₀ key := by
  refine Lib.Table.putAll_blocked Value.type ?_ hfit
  rintro p hp rfl
  exact (mem_puts lib hpos hp).2

/-! ## §3 — which frame an entry is of. -/

/-- The entries are those of the frames number `w`, `d` and `a` of the process. -/
structure Sourced (lib : Libraries K) (irs : List (Image UInt8)) (w d a : ℕ) (t : NetworkTable K) :
    Prop where
  watchdog : w < irs.length ∧ t "watchdog" = some (.double (.finite (lib.rand w : ℕ)))
  distances : ∃ ir, irs[d]? = some ir ∧
    t "distances" = some (.doubleArray (reference lib ir).distances)
  azimuths : ∃ ir, irs[a]? = some ir ∧
    t "azimuths" = some (.doubleArray (reference lib ir).azimuths)

theorem Sourced.append {lib : Libraries K} {irs : List (Image UInt8)} {w d a : ℕ}
    {t : NetworkTable K} (h : Sourced lib irs w d a t) (irs' : List (Image UInt8)) :
    Sourced lib (irs ++ irs') w d a t := by
  obtain ⟨⟨hw, hwatchdog⟩, ⟨ird, hd, hdist⟩, ira, ha, haz⟩ := h
  refine ⟨⟨?_, hwatchdog⟩, ⟨ird, ?_, hdist⟩, ira, ?_, haz⟩
  · rw [List.length_append]
    omega
  · exact List.getElem?_append_left (List.getElem?_eq_some_iff.mp hd).1 ▸ hd
  · exact List.getElem?_append_left (List.getElem?_eq_some_iff.mp ha).1 ▸ ha

/-- The three Puts of a frame make all entries its own. -/
theorem sourced_framePuts (lib : Libraries K) (irs : List (Image UInt8)) (ir : Image UInt8)
    (t : NetworkTable K) :
    Sourced lib (irs ++ [ir]) irs.length irs.length irs.length
      (t.written (framePuts lib irs.length ir)) := by
  have hlast : (irs ++ [ir])[irs.length]? = some ir := by simp
  refine ⟨⟨by simp, ?_⟩, ⟨ir, hlast, ?_⟩, ir, hlast, ?_⟩
  all_goals simp [Lib.Table.written, framePuts, putNumber, putNumberArray]

/-- After the Put of the watchdog, its entry is of the new frame. -/
theorem Sourced.putWatchdog {lib : Libraries K} {irs : List (Image UInt8)} {w d a : ℕ}
    {t : NetworkTable K} (h : Sourced lib irs w d a t) (ir : Image UInt8) :
    Sourced lib (irs ++ [ir]) irs.length d a
      (t.written ((framePuts lib irs.length ir).take 1)) := by
  obtain ⟨_, ⟨ird, hd, hdist⟩, ira, ha, haz⟩ := h.append [ir]
  refine ⟨⟨by simp, ?_⟩, ⟨ird, hd, ?_⟩, ira, ha, ?_⟩
  all_goals simp [Lib.Table.written, framePuts, putNumber, hdist, haz]

/-- After the Put of the distances, two entries are of the new frame. -/
theorem Sourced.putDistances {lib : Libraries K} {irs : List (Image UInt8)} {w d a : ℕ}
    {t : NetworkTable K} (h : Sourced lib irs w d a t) (ir : Image UInt8) :
    Sourced lib (irs ++ [ir]) irs.length irs.length a
      (t.written ((framePuts lib irs.length ir).take 2)) := by
  have hlast : (irs ++ [ir])[irs.length]? = some ir := by simp
  obtain ⟨_, _, ira, ha, haz⟩ := h.append [ir]
  refine ⟨⟨by simp, ?_⟩, ⟨ir, hlast, ?_⟩, ira, ha, ?_⟩
  all_goals simp [Lib.Table.written, framePuts, putNumber, putNumberArray, haz]

/-! ## §4 — the entries at every state of a run. -/

/-- By how many frames the entry "watchdog" is ahead of "azimuths". -/
def Position.watchdogAhead : Position K → ℕ
  | .loopHead => 0
  | .putWatchdog _ => 0
  | .putDistances _ => 1
  | .putAzimuths _ => 1

/-- By how many frames the entry "distances" is ahead of "azimuths". -/
def Position.distancesAhead : Position K → ℕ
  | .loopHead => 0
  | .putWatchdog _ => 0
  | .putDistances _ => 0
  | .putAzimuths _ => 1

/-- The number of iterations whose three Puts were made. -/
def completedIterations (s : Vision K) : ℕ :=
  match s.position with
  | .loopHead => consumedFrames s
  | _ => consumedFrames s - 1

omit [Field K] [LinearOrder K] in
theorem completedIterations_inside {s : Vision K} (h : s.position ≠ .loopHead) :
    completedIterations s = consumedFrames s - 1 := by
  unfold completedIterations
  split
  · contradiction
  · rfl

/-- At a loop head behind a consumed frame, all entries are of that frame. -/
theorem sourced_loopHead (lib : Libraries K) {t₀ : NetworkTable K} {s₀ : Vision K}
    (hpos : s₀.position = .loopHead) (hcalls : s₀.randCalls = 0) {events : List Event}
    (hok : t₀.AllSucceed Value.type (puts ((process lib).trace s₀ events)))
    (hend : ((process lib).run s₀ events).position = .loopHead) {irs : List (Image UInt8)}
    {ir : Image UInt8} (hframes : frames ((process lib).trace s₀ events) = irs ++ [ir]) :
    Sourced lib (irs ++ [ir]) irs.length irs.length irs.length (tableAfter lib t₀ s₀ events) := by
  rw [tableAfter, Lib.Table.putAll_eq_written Value.type hok, puts_at_loopHead lib hpos hend,
    hframes, published_concat, Lib.Table.written_append, hcalls, zero_add]
  exact sourced_framePuts lib irs ir _

/-- Inside an iteration that follows a completed one, the entries are those of the completed one
with the Puts made since. -/
theorem sourced_inside (lib : Libraries K) {t₀ : NetworkTable K} {s₀ : Vision K}
    (hpos : s₀.position = .loopHead) (hcalls : s₀.randCalls = 0) {events : List Event}
    (hok : t₀.AllSucceed Value.type (puts ((process lib).trace s₀ events)))
    (hinside : ((process lib).run s₀ events).position ≠ .loopHead) {a : ℕ}
    (ha : completedIterations ((process lib).run s₀ events) = a + 1) :
    ∃ irs ir t, frames ((process lib).trace s₀ events) = irs ++ [ir] ∧ irs.length = a + 1 ∧
      Sourced lib irs a a a t ∧
        tableAfter lib t₀ s₀ events = t.written ((framePuts lib irs.length ir).take
          ((process lib).run s₀ events).position.done) := by
  have hlaw := (run_law lib hpos events).2
  rw [completedIterations_inside hinside] at ha
  have hcount : consumedFrames ((process lib).run s₀ events) = a + 2 := by omega
  rw [hcalls, zero_add, hcount] at hlaw
  obtain ⟨irs', ir, hframes, hlen⟩ := Lib.exists_concat hlaw.symm
  obtain ⟨irs, ir', rfl, rfl⟩ := Lib.exists_concat hlen
  have hputs := puts_eq lib hpos hframes
  rw [hcalls, zero_add, published_concat, zero_add] at hputs
  refine ⟨irs ++ [ir'], ir,
    (t₀.written (published lib 0 irs)).written (framePuts lib irs.length ir'), hframes, hlen,
    sourced_framePuts lib irs ir' _, ?_⟩
  rw [tableAfter, Lib.Table.putAll_eq_written Value.type hok, hputs, Lib.Table.written_append,
    Lib.Table.written_append]

/-- **Which frame each entry is of**, at every state after a completed iteration. -/
theorem sourced_after (lib : Libraries K) {t₀ : NetworkTable K} {s₀ : Vision K}
    (hpos : s₀.position = .loopHead) (hcalls : s₀.randCalls = 0) {events : List Event}
    (hok : t₀.AllSucceed Value.type (puts ((process lib).trace s₀ events))) {a : ℕ}
    (ha : completedIterations ((process lib).run s₀ events) = a + 1) :
    Sourced lib (frames ((process lib).trace s₀ events))
      (a + ((process lib).run s₀ events).position.watchdogAhead)
      (a + ((process lib).run s₀ events).position.distancesAhead) a
        (tableAfter lib t₀ s₀ events) := by
  cases hend : ((process lib).run s₀ events).position with
  | loopHead =>
      rw [completedIterations, hend] at ha
      have hlaw := (run_law lib hpos events).2
      rw [hcalls, zero_add] at hlaw
      obtain ⟨irs, ir, hframes, rfl⟩ := Lib.exists_concat (hlaw.symm.trans ha)
      rw [hframes]
      exact sourced_loopHead lib hpos hcalls hok hend hframes
  | putWatchdog t =>
      have hinside : ((process lib).run s₀ events).position ≠ .loopHead := by rw [hend]; nofun
      obtain ⟨irs, ir, t, hframes, _, hbase, htable⟩ :=
        sourced_inside lib hpos hcalls hok hinside ha
      rw [hframes, htable, hend]
      -- the frame is consumed, but none of its Puts is made
      exact hbase.append [ir]
  | putDistances t =>
      have hinside : ((process lib).run s₀ events).position ≠ .loopHead := by rw [hend]; nofun
      obtain ⟨irs, ir, t, hframes, hlen, hbase, htable⟩ :=
        sourced_inside lib hpos hcalls hok hinside ha
      rw [hframes, htable, hend]
      show Sourced lib (irs ++ [ir]) (a + 1) a a _
      rw [← hlen]
      exact hbase.putWatchdog ir
  | putAzimuths t =>
      have hinside : ((process lib).run s₀ events).position ≠ .loopHead := by rw [hend]; nofun
      obtain ⟨irs, ir, t, hframes, hlen, hbase, htable⟩ :=
        sourced_inside lib hpos hcalls hok hinside ha
      rw [hframes, htable, hend]
      show Sourced lib (irs ++ [ir]) (a + 1) (a + 1) a _
      rw [← hlen]
      exact hbase.putDistances ir

/-! ## §5 — the publication law. -/

/-- The arrays in the table are the targets of the frame: as many entries as contours that pass the
filter, each pair computed from the bounding box of its contour. -/
structure Publishes (lib : Libraries K) (ir : Image UInt8) (t : NetworkTable K)
    (distances azimuths : List (ExactDouble K)) : Prop where
  distancesEntry : t "distances" = some (.doubleArray distances)
  azimuthsEntry : t "azimuths" = some (.doubleArray azimuths)
  distancesLength : distances.length = (passing lib.cv ir).length
  azimuthsLength : azimuths.length = (passing lib.cv ir).length
  pairs : ∀ (k : ℕ) (c : Contour), (passing lib.cv ir)[k]? = some c →
    distances[k]? = some (distance lib.cmath (boundingRect c)) ∧
      azimuths[k]? = some (azimuth (boundingRect c))

/-- Arrays of one frame are that frame's targets. -/
theorem Sourced.publishes {lib : Libraries K} {irs : List (Image UInt8)} {w n : ℕ}
    {t : NetworkTable K} (h : Sourced lib irs w n n t) {ir : Image UInt8}
    (hir : irs[n]? = some ir) :
    Publishes lib ir t (reference lib ir).distances (reference lib ir).azimuths := by
  obtain ⟨_, ⟨ird, hd, hdist⟩, ira, ha, haz⟩ := h
  obtain rfl : ird = ir := Option.some.inj (hd.symm.trans hir)
  obtain rfl : ira = ird := Option.some.inj (ha.symm.trans hir)
  refine ⟨hdist, haz, ?_, ?_, ?_⟩
  · exact List.length_map ..
  · exact List.length_map ..
  · intro k c hc
    simp [reference, hc]

/-- At a loop head the arrays in the table are the targets of the last consumed frame. -/
theorem publishes_at_loopHead (lib : Libraries K) {t₀ : NetworkTable K} {s₀ : Vision K}
    (hpos : s₀.position = .loopHead) (hcalls : s₀.randCalls = 0) {events : List Event}
    (hok : t₀.AllSucceed Value.type (puts ((process lib).trace s₀ events)))
    (hend : ((process lib).run s₀ events).position = .loopHead) {irs : List (Image UInt8)}
    {ir : Image UInt8} (hframes : frames ((process lib).trace s₀ events) = irs ++ [ir]) :
    Publishes lib ir (tableAfter lib t₀ s₀ events) (reference lib ir).distances
      (reference lib ir).azimuths := by
  have hsourced := sourced_loopHead lib hpos hcalls hok hend hframes
  exact hsourced.publishes (by simp)

/-- **The publication law**, for every run of a process all of whose Puts succeed. A stale poll
leaves the table alone. The Puts made, and those still due in the current iteration, are three for
each fresh poll, and no other key is touched. At a loop head each key was written once for each
fresh poll, the arrays are the targets of the last consumed frame, and another run whose last frame
is the same has the same arrays, whatever else it went through. -/
theorem publication_law (lib : Libraries K) (t₀ : NetworkTable K) (own : Chan → Addr)
    (buffers : Buffers) (events : List Event)
    (hok : t₀.AllSucceed Value.type (puts ((process lib).trace (started own buffers) events))) :
    (∀ pre post, events = pre ++ .main :: post →
      ((process lib).step ((process lib).run (started own buffers) pre) .main).2 = .stale →
      tableAfter lib t₀ (started own buffers) (pre ++ [.main])
        = tableAfter lib t₀ (started own buffers) pre) ∧
    puts ((process lib).trace (started own buffers) events)
        ++ due lib ((process lib).run (started own buffers) events)
      = published lib 0 (frames ((process lib).trace (started own buffers) events)) ∧
    (∀ key, key ∉ mainKeys → tableAfter lib t₀ (started own buffers) events key = t₀ key) ∧
    (((process lib).run (started own buffers) events).position = .loopHead →
      (∀ key ∈ mainKeys,
        (Lib.Table.valuesAt key (puts ((process lib).trace (started own buffers) events))).length
          = (frames ((process lib).trace (started own buffers) events)).length) ∧
      ∀ irs ir, frames ((process lib).trace (started own buffers) events) = irs ++ [ir] →
        Publishes lib ir (tableAfter lib t₀ (started own buffers) events)
          (reference lib ir).distances (reference lib ir).azimuths ∧
        ∀ (t₀' : NetworkTable K) (own' : Chan → Addr) (buffers' : Buffers)
          (events' : List Event) irs',
          t₀'.AllSucceed Value.type (puts ((process lib).trace (started own' buffers') events')) →
          ((process lib).run (started own' buffers') events').position = .loopHead →
          frames ((process lib).trace (started own' buffers') events') = irs' ++ [ir] →
          tableAfter lib t₀' (started own' buffers') events' "distances"
              = tableAfter lib t₀ (started own buffers) events "distances" ∧
            tableAfter lib t₀' (started own' buffers') events' "azimuths"
              = tableAfter lib t₀ (started own buffers) events "azimuths") := by
  refine ⟨?_, ?_, ?_, ?_⟩
  · rintro pre post _ hstale
    rw [tableAfter, tableAfter, Lib.Machine.trace_concat, puts_concat, hstale]
    show t₀.putAll Value.type (_ ++ []) = _
    rw [List.append_nil]
  · exact (run_law lib rfl events).1
  · intro key hkey
    apply Lib.Table.putAll_other
    intro p hp heq
    exact hkey (heq ▸ (mem_puts lib rfl hp).1)
  · intro hend
    refine ⟨?_, ?_⟩
    · intro key hkey
      rw [puts_at_loopHead lib rfl hend, valuesAt_published lib hkey, List.length_mapIdx]
    · intro irs ir hframes
      have hpub := publishes_at_loopHead lib rfl rfl hok hend hframes
      refine ⟨hpub, ?_⟩
      intro t₀' own' buffers' events' irs' hok' hend' hframes'
      have hpub' := publishes_at_loopHead lib rfl rfl hok' hend' hframes'
      exact ⟨hpub'.distancesEntry.trans hpub.distancesEntry.symm,
        hpub'.azimuthsEntry.trans hpub.azimuthsEntry.symm⟩

/-! ## §6 — a run with a target, and one that loses it. -/

/-- Libraries with the real `tan`, and an OpenCV that knows the U. -/
noncomputable def uLibraries : Libraries ℝ :=
  ⟨uFinder, realMath, 2147483647, fun n => Fin.ofNat _ n⟩

/-- Frame buffers with the U at address 1 and black elsewhere. -/
def uBuffers : Buffers
  | .video, buffer => if buffer = 1 then uFrame else blackFrame
  | .depth, _ => fun _ => 0

/-- One iteration over the frame at an address. -/
def iteration (buffer : Addr) : List Event :=
  [.driver (.callback .video buffer), .main, .main, .main, .main]

omit [Field K] [LinearOrder K] in
theorem writable_empty : Writable (fun _ => none : NetworkTable K) := by
  intro key _ old hold
  cases hold

theorem started_allSucceed (events : List Event) :
    Lib.Table.AllSucceed Value.type (fun _ => none)
      (puts ((process uLibraries).trace (started (fun _ => 0) uBuffers) events)) :=
  allSucceed_of_writable uLibraries writable_empty rfl events

/-- The target of `uFrame` is 41 columns wide, with its centre in column 120. -/
theorem reference_uFrame :
    reference uLibraries uFrame = ⟨[.finite (rangeFactor / (41 : ℤ))], [.finite (-18.28125)]⟩ := by
  have hbox : boundingRect uBorder = ⟨100, 100, 41, 31⟩ := by decide
  have hwidth : (0 : ℤ) < (⟨100, 100, 41, 31⟩ : Rect).width := by decide
  have hcentre : centreColumn ⟨100, 100, 41, 31⟩ = 120 := by decide
  have hazimuth : (azimuthAt 120 : ℝ) = -18.28125 := by norm_num [azimuthAt]
  show Targets.mk ((passing uFinder uFrame).map fun c => distance realMath (boundingRect c))
    ((passing uFinder uFrame).map fun c => azimuth (boundingRect c)) = _
  rw [passing_uFrame, List.map_singleton, List.map_singleton, hbox, distance_eq hwidth, azimuth_eq,
    hcentre, hazimuth]

/-- The law at a run over one frame with a target. -/
theorem publication_law_target :
    Publishes uLibraries uFrame
      (tableAfter uLibraries (fun _ => none) (started (fun _ => 0) uBuffers) (iteration 1))
      [.finite (rangeFactor / (41 : ℤ))] [.finite (-18.28125)] := by
  have hok := started_allSucceed (iteration 1)
  obtain ⟨_, _, _, hend⟩ := publication_law uLibraries (fun _ => none) (fun _ => 0) uBuffers
    (iteration 1) hok
  have hpublishes := ((hend rfl).2 [] uFrame rfl).1
  rw [reference_uFrame] at hpublishes
  exact hpublishes

/-! ## §7 — what a client can read between two Puts. -/

/-- **The consistency law**: after a completed iteration `a`, for every run whose Puts all succeed,
the entry "azimuths" is of the frame `a`; "distances" is of the frame `a`, or of the next one while
only the Put of "azimuths" is due; "watchdog" is of the frame `a`, or of the next one from its Put
to the last of the iteration. In every state but that between the last two Puts the two arrays are
the targets of one frame. -/
theorem consistency_law (lib : Libraries K) (t₀ : NetworkTable K) (own : Chan → Addr)
    (buffers : Buffers) (events : List Event)
    (hok : t₀.AllSucceed Value.type (puts ((process lib).trace (started own buffers) events)))
    {a : ℕ} (ha : completedIterations ((process lib).run (started own buffers) events) = a + 1) :
    Sourced lib (frames ((process lib).trace (started own buffers) events))
      (a + ((process lib).run (started own buffers) events).position.watchdogAhead)
      (a + ((process lib).run (started own buffers) events).position.distancesAhead) a
      (tableAfter lib t₀ (started own buffers) events) ∧
    (((process lib).run (started own buffers) events).position.distancesAhead = 0 →
      ∃ ir distances azimuths, (frames ((process lib).trace (started own buffers) events))[a]?
        = some ir ∧
        Publishes lib ir (tableAfter lib t₀ (started own buffers) events) distances azimuths) := by
  have hsourced := sourced_after lib rfl rfl hok ha
  refine ⟨hsourced, fun hahead => ?_⟩
  rw [hahead, add_zero] at hsourced
  obtain ⟨ir, hir, _⟩ := hsourced.azimuths
  exact ⟨ir, _, _, hir, hsourced.publishes hir⟩

/-- The law at a run over one frame with a target, up to its last Put. -/
theorem consistency_law_target :
    Sourced uLibraries [uFrame] 0 0 0
      (tableAfter uLibraries (fun _ => none) (started (fun _ => 0) uBuffers) (iteration 1)) := by
  have hok := started_allSucceed (iteration 1)
  exact (consistency_law uLibraries (fun _ => none) (fun _ => 0) uBuffers (iteration 1) hok
    (a := 0) rfl).1

/-- All entries are of one consumed frame. -/
def OneFrame (lib : Libraries K) (irs : List (Image UInt8)) (t : NetworkTable K) : Prop :=
  ∃ n, Sourced lib irs n n n t

/-- Arrays of one frame have the same length. -/
theorem OneFrame.length_eq {lib : Libraries K} {irs : List (Image UInt8)} {t : NetworkTable K}
    (h : OneFrame lib irs t) :
    (getNumberArray t "distances" []).length = (getNumberArray t "azimuths" []).length := by
  obtain ⟨n, hsourced⟩ := h
  obtain ⟨ir, hir, _⟩ := hsourced.azimuths
  have hpub := hsourced.publishes hir
  rw [getNumberArray_of_entry hpub.distancesEntry, getNumberArray_of_entry hpub.azimuthsEntry,
    hpub.distancesLength, hpub.azimuthsLength]

/-- The U, then a black frame, up to the Put of its distances. -/
def losingRun : List Event := iteration 1 ++ [.driver (.callback .video 2), .main, .main, .main]

/-- **Distances of one frame beside azimuths of another**: after a completed iteration, all Puts
successful, a client finds no distance and one azimuth. -/
theorem mixed_frames :
    Lib.Table.AllSucceed Value.type (fun _ => none)
        (puts ((process uLibraries).trace (started (fun _ => 0) uBuffers) losingRun)) ∧
      completedIterations ((process uLibraries).run (started (fun _ => 0) uBuffers) losingRun) = 1 ∧
      (getNumberArray
        (tableAfter uLibraries (fun _ => none) (started (fun _ => 0) uBuffers) losingRun)
        "distances" []).length = 0 ∧
      (getNumberArray
        (tableAfter uLibraries (fun _ => none) (started (fun _ => 0) uBuffers) losingRun)
        "azimuths" []).length = 1 ∧
      ¬ OneFrame uLibraries
        (frames ((process uLibraries).trace (started (fun _ => 0) uBuffers) losingRun))
        (tableAfter uLibraries (fun _ => none) (started (fun _ => 0) uBuffers) losingRun) := by
  have hok := started_allSucceed losingRun
  have hsourced := sourced_after uLibraries rfl rfl hok (a := 0) rfl
  obtain ⟨_, ⟨ird, hd, hdist⟩, ira, ha, haz⟩ := hsourced
  obtain rfl : blackFrame = ird := Option.some.inj hd
  obtain rfl : uFrame = ira := Option.some.inj ha
  have hnone : (reference uLibraries blackFrame).distances.length = 0 := by
    rw [reference, List.length_map]
    exact congrArg List.length passing_blackFrame
  have hone : (reference uLibraries uFrame).azimuths.length = 1 := by
    rw [reference, List.length_map]
    exact congrArg List.length passing_uFrame
  rw [← getNumberArray_of_entry hdist []] at hnone
  rw [← getNumberArray_of_entry haz []] at hone
  refine ⟨hok, rfl, hnone, hone, fun hsame => ?_⟩
  have heq := hsame.length_eq
  omega

end NinjaVision
