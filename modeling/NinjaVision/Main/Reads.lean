/-
# NinjaVision.Main.Reads — what a client sees that reads more than once.

A client reads one entry after the other, and the service goes on in between: `main` makes steps, it
may exit and be respawned. The sources of what it reads are compared by lifetime first, then by
frame (`SourceLe`). No step takes a Put back, so the source of one key never goes back. The three
Puts of a frame are made in order, so a key is never behind one that is put after it. Together: a
client that reads the entries in the reverse order of the Puts, or reads one of them again, never
sees an older frame than before (`reads_law`).
-/
import NinjaVision.Main.Deployment

namespace NinjaVision

variable {K : Type*}

/-! ## §1 — no step takes a Put back. -/

/-- A key is put before the keys behind it. -/
theorem framesPut_mono {key key' : Key} (h : putIndex key' ≤ putIndex key) (s : Vision K) :
    framesPut key s ≤ framesPut key' s := by
  unfold framesPut
  split
  · next hdone => rw [if_pos (by omega)]
  · split <;> omega

theorem putIndex_cases (key : Key) : putIndex key = 0 ∨ putIndex key = 1 ∨ putIndex key = 2 := by
  unfold putIndex
  split
  · exact Or.inl rfl
  · split
    · exact Or.inr (Or.inl rfl)
    · exact Or.inr (Or.inr rfl)

section Steps

variable [Field K] [LinearOrder K]

theorem framesPut_step (lib : Libraries K) (key : Key) (s : Vision K) (e : Event) :
    framesPut key s ≤ framesPut key ((process lib).step s e).1 := by
  cases e with
  | driver d => exact le_rfl
  | main =>
      show framesPut key s ≤ framesPut key (s.main lib).1
      have hindex := putIndex_cases key
      cases hpos : s.position with
      | loopHead =>
          cases hflag : (s.world.device .video).newFrame with
          | false => rw [main_stale lib hpos hflag]
          | true =>
              rw [main_fresh lib hpos hflag]
              rcases hindex with hindex | hindex | hindex
              all_goals simp [framesPut, consumedFrames, hpos, hindex, Position.done]
      | putWatchdog t =>
          rw [main_putWatchdog lib hpos]
          rcases hindex with hindex | hindex | hindex
          all_goals simp [framesPut, consumedFrames, hpos, hindex, Position.done]
      | putDistances t =>
          rw [main_putDistances lib hpos]
          rcases hindex with hindex | hindex | hindex
          all_goals simp [framesPut, consumedFrames, hpos, hindex, Position.done]
      | putAzimuths t =>
          rw [main_putAzimuths lib hpos]
          rcases hindex with hindex | hindex | hindex
          all_goals simp [framesPut, consumedFrames, hpos, hindex, Position.done]

theorem framesPut_run (lib : Libraries K) (key : Key) (s : Vision K) (events : List Event) :
    framesPut key s ≤ framesPut key ((process lib).run s events) := by
  induction events generalizing s with
  | nil => exact le_rfl
  | cons e events ih =>
      rw [Lib.Machine.run_cons]
      exact (framesPut_step lib key s e).trans (ih _)

/-! ## §2 — moments of a deployment. -/

/-- A later moment of a deployment: the current lifetime went on, and others may have followed. -/
def Later (ls ls' : List Lifetime) : Prop :=
  ∃ past l more rest, ls = past ++ [l] ∧ ls' = past ++ { l with events := l.events ++ more } :: rest

/-- The first source is not newer: an earlier lifetime, or a frame of the same one that is not
newer. -/
def SourceLe : Option (ℕ × ℕ) → Option (ℕ × ℕ) → Prop
  | none, _ => True
  | some _, none => False
  | some (i, n), some (j, m) => i < j ∨ i = j ∧ n ≤ m

theorem SourceLe.refl (o : Option (ℕ × ℕ)) : SourceLe o o := by
  cases o with
  | none => trivial
  | some o => exact Or.inr ⟨rfl, le_rfl⟩

/-- The source at a moment is in the current lifetime, or in the past if that made no Put of the key
yet. -/
theorem source_concat (lib : Libraries K) (key : Key) (past : List Lifetime) (l : Lifetime) :
    source lib key (past ++ [l]) =
      if framesPut key (l.final lib) = 0 then source lib key past
      else some (past.length, framesPut key (l.final lib) - 1) :=
  source_split lib key past l fun _ hl' => absurd hl' List.not_mem_nil

/-- If no lifetime came further with the second key, the source of the first is not newer. The two
current lifetimes may differ, the past is the same. -/
theorem sourceLe_concat (lib : Libraries K) {key key' : Key} {past : List Lifetime}
    (hpast : SourceLe (source lib key past) (source lib key' past)) {l l' : Lifetime}
    (hle : framesPut key (l.final lib) ≤ framesPut key' (l'.final lib)) :
    SourceLe (source lib key (past ++ [l])) (source lib key' (past ++ [l'])) := by
  rw [source_concat, source_concat]
  split
  · split
    · exact hpast
    · -- the first key is of the past, the second one of the current lifetime
      cases hsource : source lib key past with
      | none => trivial
      | some origin =>
          obtain ⟨i, n⟩ := origin
          left
          exact source_lt lib hsource
  · rw [if_neg (by omega)]
    exact Or.inr ⟨rfl, by omega⟩

/-- Over the same lifetimes, a key is not behind one that is put after it. -/
theorem sourceLe_of_putIndex (lib : Libraries K) {key key' : Key} (h : putIndex key' ≤ putIndex key)
    (ls : List Lifetime) : SourceLe (source lib key ls) (source lib key' ls) := by
  induction ls using List.reverseRecOn with
  | nil => trivial
  | append_singleton past l ih => exact sourceLe_concat lib ih (framesPut_mono h (l.final lib))

/-! ## §3 — two reads. -/

/-- The source at a moment is not newer than that of a key put before it, at a later moment. -/
theorem sourceLe_later (lib : Libraries K) {key key' : Key} (h : putIndex key' ≤ putIndex key)
    {ls ls' : List Lifetime} (hlater : Later ls ls') :
    SourceLe (source lib key ls) (source lib key' ls') := by
  obtain ⟨past, l, more, rest, rfl, rfl⟩ := hlater
  set l' : Lifetime := { l with events := l.events ++ more } with hl'
  have hfinal : l'.final lib = (process lib).run (l.final lib) more := Lib.Machine.run_append ..
  have hle : framesPut key (l.final lib) ≤ framesPut key' (l'.final lib) := by
    rw [hfinal]
    exact (framesPut_mono h _).trans (framesPut_run lib key' _ more)
  have hcurrent := sourceLe_concat lib (sourceLe_of_putIndex lib h past) hle
  have hsplit : past ++ l' :: rest = past ++ [l'] ++ rest := by simp
  rw [hsplit, source_append lib key' (past ++ [l']) rest]
  cases hrest : source lib key' rest with
  | none => exact hcurrent
  | some origin =>
      -- a lifetime that followed put the second key
      cases hsource : source lib key (past ++ [l]) with
      | none => trivial
      | some origin' =>
          left
          have hlt := source_lt lib hsource
          rw [List.length_append, List.length_singleton] at hlt ⊢
          omega

/-- **The reads law.** A client reads one entry, and later, after any further steps, exits and
respawns, an entry that is put before it in an iteration, or the same one again; before the first
lifetime neither held a value of another type. What it reads is of the sources of the two entries at
the two moments, and the second source is not older. -/
theorem reads_law (lib : Libraries K) {t₀ : NetworkTable K} {ls ls' : List Lifetime}
    (hlater : Later ls ls') {key key' : Key} (hkey : key ∈ mainKeys) (hkey' : key' ∈ mainKeys)
    (horder : putIndex key' ≤ putIndex key) (hfit : t₀.Fits Value.type key (keyType key))
    (hfit' : t₀.Fits Value.type key' (keyType key')) :
    (∃ v, IsOf lib key ls (source lib key ls) v ∧
      t₀.putAll Value.type (deploymentPuts lib ls) key = v.or (t₀ key)) ∧
    (∃ v', IsOf lib key' ls' (source lib key' ls') v' ∧
      t₀.putAll Value.type (deploymentPuts lib ls') key' = v'.or (t₀ key')) ∧
    SourceLe (source lib key ls) (source lib key' ls') :=
  ⟨entry_source lib hfit hkey ls, entry_source lib hfit' hkey' ls',
    sourceLe_later lib horder hlater⟩

/-- The law at a client that reads the azimuths after one frame and the distances inside the next
iteration. -/
theorem reads_law_target :
    SourceLe (source uLibraries "azimuths" [⟨fun _ => 0, uBuffers, iteration 1⟩])
      (source uLibraries "distances" [⟨fun _ => 0, uBuffers, losingRun⟩]) := by
  have hlater : Later [⟨fun _ => 0, uBuffers, iteration 1⟩] [⟨fun _ => 0, uBuffers, losingRun⟩] :=
    ⟨[], _, [.driver (.callback .video 2), .main, .main, .main], [], rfl, rfl⟩
  have ha : "azimuths" ∈ mainKeys := by simp [mainKeys]
  have hd : "distances" ∈ mainKeys := by simp [mainKeys]
  exact (reads_law uLibraries hlater ha hd (by decide) (writable_empty _ ha)
    (writable_empty _ hd)).2.2

end Steps

end NinjaVision
