/-
# NinjaVision.Main.Deployment — whose frame an entry is of, over a whole deployment.

The table server keeps the entries while the service is down, and a new lifetime writes none before
its first fresh poll. So an entry is of the last lifetime that made a Put of its key, which need not
be the same lifetime for all keys: a lifetime may exit between two Puts.

`source` says which lifetime and which of its frames an entry is of. It is a function of how far
each lifetime came (`framesPut`), not of the frames. `deployment_law` reads the table from it, and
says when the two arrays are of one frame: exactly when the last lifetime that put distances did not
exit with the Put of the azimuths due. If it did, the pair stays torn through the restart, and the
azimuths are of the frame before, or, where there is none, of an earlier lifetime.
-/
import NinjaVision.Main.Watchdog

namespace NinjaVision

open Lib (ExactDouble)

variable {K : Type*}

/-! ## §1 — how far a lifetime came with a key. -/

/-- The place of a key's Put in an iteration. -/
def putIndex (key : Key) : ℕ := if key = "watchdog" then 0 else if key = "distances" then 1 else 2

/-- The number of frames whose Put of the key was made. -/
def framesPut (key : Key) (s : Vision K) : ℕ :=
  if putIndex key < s.position.done then consumedFrames s else consumedFrames s - 1

theorem framesPut_le (key : Key) (s : Vision K) : framesPut key s ≤ consumedFrames s := by
  unfold framesPut
  split <;> omega

variable [Field K]

/-- Of the Puts due, at most one is of a given key. -/
theorem valuesAt_due (lib : Libraries K) {key : Key} (hkey : key ∈ mainKeys) (s : Vision K) :
    (Lib.Table.valuesAt key (due lib s)).length = if putIndex key < s.position.done then 0
      else 1 := by
  simp only [mainKeys, List.mem_cons, List.not_mem_nil, or_false] at hkey
  unfold due
  rcases hkey with rfl | rfl | rfl <;> cases s.position
  all_goals simp [Lib.Table.valuesAt, putNumber, putNumberArray, putIndex, Position.done]

variable [LinearOrder K]

/-- The state a lifetime ends in. -/
def Lifetime.final (lib : Libraries K) (l : Lifetime) : Vision K :=
  (process lib).run (started l.own l.buffers) l.events

/-- The frames a lifetime consumed. -/
def Lifetime.frames (lib : Libraries K) (l : Lifetime) : List (Image UInt8) :=
  NinjaVision.frames ((process lib).trace (started l.own l.buffers) l.events)

theorem Lifetime.consumed (lib : Libraries K) (l : Lifetime) :
    consumedFrames (l.final lib) = (l.frames lib).length :=
  (run_law lib rfl l.events).2.trans (Nat.zero_add _)

/-- Inside an iteration there is a frame it is about. -/
theorem Lifetime.consumed_pos (lib : Libraries K) (l : Lifetime)
    (h : (l.final lib).position ≠ .loopHead) : 0 < consumedFrames (l.final lib) := by
  have hlaw : l.puts lib ++ due lib (l.final lib) = published lib 0 (l.frames lib) :=
    (run_law lib rfl l.events).1
  rw [l.consumed lib, List.length_pos_iff]
  intro hnil
  rw [hnil, published, List.append_eq_nil_iff] at hlaw
  have hdue := due_length lib (l.final lib)
  rw [hlaw.2, List.length_nil] at hdue
  -- with a Put due, the list of Puts due is not empty
  cases hpos : (l.final lib).position with
  | loopHead => exact h hpos
  | putWatchdog t => simp [hpos, Position.done] at hdue
  | putDistances t => simp [hpos, Position.done] at hdue
  | putAzimuths t => simp [hpos, Position.done] at hdue

/-- **The values a lifetime puts at a key** are those of its first frames, as far as it came. -/
theorem Lifetime.values (lib : Libraries K) {key : Key} (hkey : key ∈ mainKeys) (l : Lifetime) :
    Lib.Table.valuesAt key (l.puts lib)
      = ((l.frames lib).mapIdx (entryOf lib key)).take (framesPut key (l.final lib)) := by
  have hlaw : l.puts lib ++ due lib (l.final lib) = published lib 0 (l.frames lib) :=
    (run_law lib rfl l.events).1
  have hvalues := congrArg (Lib.Table.valuesAt key) hlaw
  rw [Lib.Table.valuesAt_append, valuesAt_published lib hkey] at hvalues
  simp only [Nat.zero_add] at hvalues
  have hlength := congrArg List.length hvalues
  rw [List.length_append, valuesAt_due lib hkey, List.length_mapIdx, ← l.consumed lib] at hlength
  have hcount : (Lib.Table.valuesAt key (l.puts lib)).length = framesPut key (l.final lib) := by
    unfold framesPut
    split at hlength
    · next hdone => rw [if_pos hdone]; omega
    · next hdone => rw [if_neg hdone]; omega
  rw [← hvalues, List.take_left' hcount]

/-- The last of them is that of the frame it came to. -/
theorem Lifetime.lastValue (lib : Libraries K) {key : Key} (hkey : key ∈ mainKeys) (l : Lifetime) :
    (framesPut key (l.final lib) = 0 ∧ (Lib.Table.valuesAt key (l.puts lib)).getLast? = none) ∨
    ∃ n ir, framesPut key (l.final lib) = n + 1 ∧ (l.frames lib)[n]? = some ir ∧
      (Lib.Table.valuesAt key (l.puts lib)).getLast? = some (entryOf lib key n ir) := by
  rw [l.values lib hkey]
  cases hcount : framesPut key (l.final lib) with
  | zero => exact Or.inl ⟨rfl, by simp⟩
  | succ n =>
      right
      have hlt : n < (l.frames lib).length := by
        have hle := framesPut_le key (l.final lib)
        rw [l.consumed lib] at hle
        omega
      refine ⟨n, (l.frames lib)[n], rfl, List.getElem?_eq_getElem hlt, ?_⟩
      rw [List.getLast?_take, if_neg (Nat.succ_ne_zero n), Nat.add_sub_cancel, List.getElem?_mapIdx,
        List.getElem?_eq_getElem hlt]
      rfl

/-! ## §2 — the source of an entry. -/

/-- The last lifetime that made a Put of the key, and the number of its last frame put there. -/
def source (lib : Libraries K) (key : Key) : List Lifetime → Option (ℕ × ℕ)
  | [] => none
  | l :: ls =>
      match source lib key ls with
      | some (i, n) => some (i + 1, n)
      | none =>
          if framesPut key (l.final lib) = 0 then none
          else some (0, framesPut key (l.final lib) - 1)

/-- The value is what the key was put as for the frame of the source, and there is none without a
source. -/
def IsOf (lib : Libraries K) (key : Key) (ls : List Lifetime) :
    Option (ℕ × ℕ) → Option (Value K) → Prop
  | none, v => v = none
  | some (i, n), v =>
      ∃ l ir, ls[i]? = some l ∧ (l.frames lib)[n]? = some ir ∧ v = some (entryOf lib key n ir)

/-- **The last value put at a key is that of its source.** -/
theorem isOf_source (lib : Libraries K) {key : Key} (hkey : key ∈ mainKeys) (ls : List Lifetime) :
    IsOf lib key ls (source lib key ls)
      (Lib.Table.valuesAt key (deploymentPuts lib ls)).getLast? := by
  induction ls with
  | nil => rfl
  | cons l ls ih =>
      have hsplit : deploymentPuts lib (l :: ls) = l.puts lib ++ deploymentPuts lib ls :=
        List.flatMap_cons
      rw [hsplit, Lib.Table.valuesAt_append, List.getLast?_append]
      unfold source
      cases hsource : source lib key ls with
      | some origin =>
          obtain ⟨i, n⟩ := origin
          rw [hsource] at ih
          obtain ⟨l', ir, hl', hir, hvalue⟩ := ih
          rw [hvalue]
          exact ⟨l', ir, hl', hir, rfl⟩
      | none =>
          rw [hsource] at ih
          rw [show _ = none from ih, Option.none_or]
          rcases l.lastValue lib hkey with ⟨hzero, hlast⟩ | ⟨n, ir, hcount, hir, hlast⟩
          · rw [hlast, hzero]
            rfl
          · rw [hlast, hcount]
            exact ⟨l, ir, rfl, hir, rfl⟩

/-- Lifetimes that put nothing at the key do not change its source. -/
theorem source_silent (lib : Libraries K) (key : Key) {post : List Lifetime}
    (h : ∀ l ∈ post, framesPut key (l.final lib) = 0) : source lib key post = none := by
  induction post with
  | nil => rfl
  | cons l post ih =>
      rw [source, ih fun l' hl' => h l' (List.mem_cons_of_mem _ hl'), h l List.mem_cons_self]
      rfl

/-- The source over a deployment in two parts. -/
theorem source_append (lib : Libraries K) (key : Key) (pre rest : List Lifetime) :
    source lib key (pre ++ rest) = match source lib key rest with
      | some (i, n) => some (pre.length + i, n)
      | none => source lib key pre := by
  induction pre with
  | nil =>
      rw [List.nil_append]
      cases hrest : source lib key rest with
      | none => simp only [source]
      | some o => simp only [List.length_nil, Nat.zero_add]
  | cons l pre ih =>
      rw [List.cons_append, source, ih]
      cases hrest : source lib key rest with
      | none => simp only [source]
      | some o => simp only [List.length_cons, Nat.add_right_comm]

/-- **The source is in the last lifetime that put something**, or before it if that one did not. -/
theorem source_split (lib : Libraries K) (key : Key) (pre : List Lifetime) (l : Lifetime)
    {post : List Lifetime} (h : ∀ l' ∈ post, framesPut key (l'.final lib) = 0) :
    source lib key (pre ++ l :: post) =
      if framesPut key (l.final lib) = 0 then source lib key pre
      else some (pre.length, framesPut key (l.final lib) - 1) := by
  have hcurrent : source lib key (l :: post) =
      if framesPut key (l.final lib) = 0 then none
        else some (0, framesPut key (l.final lib) - 1) := by
    rw [source, source_silent lib key h]
  rw [source_append, hcurrent]
  by_cases hl : framesPut key (l.final lib) = 0
  · rw [if_pos hl, if_pos hl]
  · rw [if_neg hl, if_neg hl]
    rfl

/-- Some lifetime put something at the key, and none after it, or no lifetime did. -/
theorem source_cases (lib : Libraries K) (key : Key) (ls : List Lifetime) :
    (∀ l ∈ ls, framesPut key (l.final lib) = 0) ∨
    ∃ pre l post, ls = pre ++ l :: post ∧ framesPut key (l.final lib) ≠ 0 ∧
      ∀ l' ∈ post, framesPut key (l'.final lib) = 0 := by
  induction ls with
  | nil => exact Or.inl fun l hl => absurd hl List.not_mem_nil
  | cons l ls ih =>
      rcases ih with hsilent | ⟨pre, l', post, rfl, hput, hpost⟩
      · by_cases hl : framesPut key (l.final lib) = 0
        · exact Or.inl (List.forall_mem_cons.mpr ⟨hl, hsilent⟩)
        · exact Or.inr ⟨[], l, ls, rfl, hl, hsilent⟩
      · exact Or.inr ⟨l :: pre, l', post, rfl, hput, hpost⟩

/-! ## §3 — the two arrays. -/

/-- The azimuths are behind the distances by one frame when a lifetime exits between the two Puts,
and level with them otherwise. -/
theorem Lifetime.azimuths_behind (lib : Libraries K) (l : Lifetime) :
    framesPut "distances" (l.final lib)
      = framesPut "azimuths" (l.final lib) + (l.final lib).position.distancesAhead := by
  have hpos := l.consumed_pos lib
  cases hposition : (l.final lib).position with
  | loopHead => simp [framesPut, putIndex, hposition, Position.done, Position.distancesAhead]
  | putWatchdog t => simp [framesPut, putIndex, hposition, Position.done, Position.distancesAhead]
  | putDistances t => simp [framesPut, putIndex, hposition, Position.done, Position.distancesAhead]
  | putAzimuths t =>
      have hone : 0 < consumedFrames (l.final lib) := hpos (by simp [hposition])
      simp [framesPut, putIndex, hposition, Position.done, Position.distancesAhead]
      omega

/-- A lifetime that put no distances put no azimuths. -/
theorem Lifetime.azimuths_silent (lib : Libraries K) {l : Lifetime}
    (h : framesPut "distances" (l.final lib) = 0) : framesPut "azimuths" (l.final lib) = 0 := by
  have hbehind := l.azimuths_behind lib
  omega

/-- The sources of both arrays, from the last lifetime that put distances. -/
theorem source_arrays (lib : Libraries K) (pre : List Lifetime) {l : Lifetime}
    {post : List Lifetime} {n : ℕ} (hcount : framesPut "distances" (l.final lib) = n + 1)
    (hpost : ∀ l' ∈ post, framesPut "distances" (l'.final lib) = 0) :
    source lib "distances" (pre ++ l :: post) = some (pre.length, n) ∧
    ((l.final lib).position.distancesAhead = 0 →
      source lib "azimuths" (pre ++ l :: post) = some (pre.length, n)) ∧
    ((l.final lib).position.distancesAhead = 1 →
      source lib "azimuths" (pre ++ l :: post)
        = if n = 0 then source lib "azimuths" pre else some (pre.length, n - 1)) := by
  have hbehind := l.azimuths_behind lib
  rw [hcount] at hbehind
  have hsilent : ∀ l' ∈ post, framesPut "azimuths" (l'.final lib) = 0 := fun l' hl' =>
    Lifetime.azimuths_silent lib (hpost l' hl')
  rw [source_split lib "distances" pre l hpost, source_split lib "azimuths" pre l hsilent, hcount]
  refine ⟨rfl, fun hlevel => ?_, fun hahead => ?_⟩
  · have hsame : framesPut "azimuths" (l.final lib) = n + 1 := by omega
    rw [hsame]
    rfl
  · have hone : framesPut "azimuths" (l.final lib) = n := by omega
    rw [hone]

omit [Field K] [LinearOrder K] in
theorem Position.distancesAhead_le (p : Position K) : p.distancesAhead ≤ 1 := by
  cases p <;> simp [Position.distancesAhead]

/-- A source is a lifetime of the deployment. -/
theorem source_lt (lib : Libraries K) {key : Key} {ls : List Lifetime} {i n : ℕ}
    (h : source lib key ls = some (i, n)) : i < ls.length := by
  induction ls generalizing i n with
  | nil => cases h
  | cons l ls ih =>
      rw [List.length_cons]
      unfold source at h
      cases hsource : source lib key ls with
      | some origin =>
          obtain ⟨j, m⟩ := origin
          rw [hsource] at h
          simp only [Option.some.injEq, Prod.mk.injEq] at h
          have hlt := ih hsource
          omega
      | none =>
          simp only [hsource] at h
          split at h
          · cases h
          · simp only [Option.some.injEq, Prod.mk.injEq] at h
            omega

/-- The sources of the two arrays are the same exactly when the last lifetime that put distances did
not exit between the two Puts. -/
theorem source_eq_iff (lib : Libraries K) (ls : List Lifetime) :
    source lib "distances" ls = source lib "azimuths" ls ↔
      ∀ pre l post, ls = pre ++ l :: post → framesPut "distances" (l.final lib) ≠ 0 →
        (∀ l' ∈ post, framesPut "distances" (l'.final lib) = 0) →
          (l.final lib).position.distancesAhead = 0 := by
  constructor
  · rintro hsame pre l post rfl hput hpost
    obtain ⟨n, hcount⟩ := Nat.exists_eq_succ_of_ne_zero hput
    obtain ⟨hdistances, _, htorn⟩ := source_arrays lib pre hcount hpost
    by_contra hne
    have hahead : (l.final lib).position.distancesAhead = 1 := by
      have hle := (l.final lib).position.distancesAhead_le
      omega
    rw [hdistances, htorn hahead] at hsame
    split at hsame
    -- the azimuths are of an earlier lifetime, or of the frame before
    · have hlt := source_lt lib hsame.symm
      exact absurd hlt (lt_irrefl _)
    · simp only [Option.some.injEq, Prod.mk.injEq, true_and] at hsame
      omega
  · intro hlevel
    rcases source_cases lib "distances" ls with hsilent | ⟨pre, l, post, rfl, hput, hpost⟩
    · have hsilent' : ∀ l ∈ ls, framesPut "azimuths" (l.final lib) = 0 := fun l hl =>
        Lifetime.azimuths_silent lib (hsilent l hl)
      rw [source_silent lib "distances" hsilent, source_silent lib "azimuths" hsilent']
    · obtain ⟨n, hcount⟩ := Nat.exists_eq_succ_of_ne_zero hput
      obtain ⟨hdistances, hsame, _⟩ := source_arrays lib pre hcount hpost
      rw [hdistances, hsame (hlevel pre l post rfl hput hpost)]

/-- Every Put of a deployment is on one of the three keys, with the type of that key. -/
theorem mem_deploymentPuts (lib : Libraries K) {ls : List Lifetime} {p : Put K}
    (hp : p ∈ deploymentPuts lib ls) : p.1 ∈ mainKeys ∧ p.2.type = keyType p.1 := by
  obtain ⟨l, _, hl⟩ := List.mem_flatMap.mp hp
  exact mem_puts lib rfl hl

/-- An entry that no value of another type is in, after a deployment, is that of its source, over
the entry before it. -/
theorem entry_source (lib : Libraries K) {t₀ : NetworkTable K} {key : Key}
    (hfit : t₀.Fits Value.type key (keyType key)) (hkey : key ∈ mainKeys) (ls : List Lifetime) :
    ∃ v, IsOf lib key ls (source lib key ls) v ∧
      t₀.putAll Value.type (deploymentPuts lib ls) key = v.or (t₀ key) := by
  refine ⟨_, isOf_source lib hkey ls, Lib.Table.putAll_entry Value.type ?_ hfit⟩
  intro p hp heq
  rw [← heq]
  exact (mem_deploymentPuts lib hp).2

/-- **The deployment law.** After any number of lifetimes, each cut off anywhere: an entry without a
value of another type is of its source, and as before the first lifetime if it has none. Arrays with
one source are the targets of one frame. They have one source exactly when the last lifetime that
put distances did not exit with the Put of the azimuths due; if it did, the azimuths are of the
frame before, or of an earlier lifetime if that was its first frame. -/
theorem deployment_law (lib : Libraries K) (t₀ : NetworkTable K) (ls : List Lifetime) :
    (∀ key ∈ mainKeys, t₀.Fits Value.type key (keyType key) →
      ∃ v, IsOf lib key ls (source lib key ls) v ∧
        t₀.putAll Value.type (deploymentPuts lib ls) key = v.or (t₀ key)) ∧
    (t₀.Fits Value.type "distances" .doubleArray → t₀.Fits Value.type "azimuths" .doubleArray →
      ∀ origin, source lib "distances" ls = some origin → source lib "azimuths" ls = some origin →
        ∃ ir, Publishes lib ir (t₀.putAll Value.type (deploymentPuts lib ls))
          (reference lib ir).distances (reference lib ir).azimuths) ∧
    (source lib "distances" ls = source lib "azimuths" ls ↔
      ∀ pre l post, ls = pre ++ l :: post → framesPut "distances" (l.final lib) ≠ 0 →
        (∀ l' ∈ post, framesPut "distances" (l'.final lib) = 0) →
        (l.final lib).position.distancesAhead = 0) ∧
    ∀ pre l post n, ls = pre ++ l :: post → framesPut "distances" (l.final lib) = n + 1 →
      (∀ l' ∈ post, framesPut "distances" (l'.final lib) = 0) →
      (l.final lib).position.distancesAhead = 1 →
      source lib "distances" ls = some (pre.length, n) ∧
      source lib "azimuths" ls
        = if n = 0 then source lib "azimuths" pre else some (pre.length, n - 1) := by
  refine ⟨fun key hkey hfit => entry_source lib hfit hkey ls, ?_, source_eq_iff lib ls, ?_⟩
  · rintro hfitDistances hfitAzimuths ⟨i, n⟩ hdistances hazimuths
    have hd : "distances" ∈ mainKeys := by simp [mainKeys]
    have ha : "azimuths" ∈ mainKeys := by simp [mainKeys]
    obtain ⟨v, hv, hentry⟩ := entry_source lib hfitDistances hd ls
    obtain ⟨v', hv', hentry'⟩ := entry_source lib hfitAzimuths ha ls
    rw [hdistances] at hv
    rw [hazimuths] at hv'
    obtain ⟨l, ir, hl, hir, rfl⟩ := hv
    obtain ⟨l', ir', hl', hir', rfl⟩ := hv'
    obtain rfl : l = l' := Option.some.inj (hl.symm.trans hl')
    obtain rfl : ir = ir' := Option.some.inj (hir.symm.trans hir')
    refine ⟨ir, hentry, hentry', List.length_map .., List.length_map .., ?_⟩
    intro k c hc
    simp [reference, hc]
  · rintro pre l post n rfl hcount hpost hahead
    obtain ⟨hdistances, _, htorn⟩ := source_arrays lib pre hcount hpost
    exact ⟨hdistances, htorn hahead⟩

/-- The law at a service that loses its target, exits before the Put of the azimuths, and sees no
frame after it is respawned: no distances stay beside one azimuth. -/
theorem deployment_law_torn :
    source uLibraries "distances" [⟨fun _ => 0, uBuffers, losingRun⟩,
      ⟨fun _ => 0, uBuffers, [.main]⟩] = some (0, 1) ∧
    source uLibraries "azimuths" [⟨fun _ => 0, uBuffers, losingRun⟩,
      ⟨fun _ => 0, uBuffers, [.main]⟩] = some (0, 0) := by
  have hlaw := deployment_law uLibraries (fun _ => none)
    [⟨fun _ => 0, uBuffers, losingRun⟩, ⟨fun _ => 0, uBuffers, [.main]⟩]
  refine hlaw.2.2.2 [] _ _ 1 rfl rfl ?_ rfl
  rintro l hl
  obtain rfl := List.mem_singleton.mp hl
  rfl

/-! ## §4 — entries of other types. -/

/-- What is put at a key has the type of the key. -/
theorem entryOf_type (lib : Libraries K) {key : Key} (hkey : key ∈ mainKeys) (n : ℕ)
    (ir : Image UInt8) : (entryOf lib key n ir).type = keyType key := by
  simp only [mainKeys, List.mem_cons, List.not_mem_nil, or_false] at hkey
  rcases hkey with rfl | rfl | rfl
  all_goals simp [entryOf, keyType, watchdogValue, Value.type]

/-- **The type law**, for every table before the first lifetime. A key of `main` that holds a value
of another type keeps that value through all lifetimes, and so does every key that is not one of the
three; the other keys of `main` are of their sources all the same. No entry vanishes or changes its
type. -/
theorem type_law (lib : Libraries K) (t₀ : NetworkTable K) (ls : List Lifetime) :
    (∀ key, key ∉ mainKeys ∨ ¬ t₀.Fits Value.type key (keyType key) →
      t₀.putAll Value.type (deploymentPuts lib ls) key = t₀ key) ∧
    (∀ key ∈ mainKeys, t₀.Fits Value.type key (keyType key) →
      ∃ v, IsOf lib key ls (source lib key ls) v ∧
      t₀.putAll Value.type (deploymentPuts lib ls) key = v.or (t₀ key)) ∧
    ∀ key old, t₀ key = some old → ∃ new,
      t₀.putAll Value.type (deploymentPuts lib ls) key = some new ∧ new.type = old.type := by
  have hkept : ∀ key, key ∉ mainKeys ∨ ¬ t₀.Fits Value.type key (keyType key) →
      t₀.putAll Value.type (deploymentPuts lib ls) key = t₀ key := by
    rintro key (hkey | hfit)
    · apply Lib.Table.putAll_other
      rintro p hp rfl
      exact hkey (mem_deploymentPuts lib hp).1
    · apply Lib.Table.putAll_blocked Value.type _ hfit
      rintro p hp rfl
      exact (mem_deploymentPuts lib hp).2
  refine ⟨hkept, fun key hkey hfit => entry_source lib hfit hkey ls, ?_⟩
  intro key old hold
  by_cases hmain : key ∈ mainKeys ∧ t₀.Fits Value.type key (keyType key)
  · obtain ⟨hkey, hfit⟩ := hmain
    obtain ⟨v, hv, hentry⟩ := entry_source lib hfit hkey ls
    cases hsource : source lib key ls with
    | none =>
        rw [hsource] at hv
        obtain rfl : v = none := hv
        exact ⟨old, hentry.trans hold, rfl⟩
    | some origin =>
        rw [hsource] at hv
        obtain ⟨l, ir, _, _, rfl⟩ := hv
        exact ⟨_, hentry, (entryOf_type lib hkey _ _).trans (hfit old hold).symm⟩
  · exact ⟨old, (hkept key (not_and_or.mp hmain)).trans hold, rfl⟩

end NinjaVision
