/-
# NinjaVision.Lib.TypedTable — a key-value table that refuses to change the type of an entry.

Every value has a tag, its type. A `put` on a key that is absent, or held with the same tag,
replaces the entry and succeeds; on a key held with another tag it fails and changes nothing. `Fits`
is the condition on which it succeeds. The tag of an entry never changes once it is there, so for a
key that is put with one type only, `Fits` is decided by the first table of a run (`putAll_fits`).

A writer that ignores the results leaves `putAll`. Three facts say what that is: it is plain
replacement when every put succeeds (`putAll_eq_written`); puts to different keys do not see each
other (`putAll_of_mem`); and every put to a key changes the entry exactly when the type fits and no
value repeats the one before it (`alwaysChanges_iff`).
-/
import Mathlib.Logic.Function.Basic
import Mathlib.Data.List.Chain

namespace NinjaVision.Lib

/-- A table: the value of each key that is present. -/
abbrev Table (κ ν : Type*) := κ → Option ν

namespace Table

variable {κ ν τ : Type*} [DecidableEq κ] [DecidableEq τ] (tag : ν → τ)

/-- Replace the entry unless it is held with another tag. -/
def put (t : Table κ ν) (key : κ) (value : ν) : Bool × Table κ ν :=
  match t key with
  | none => (true, Function.update t key (some value))
  | some old => if tag old = tag value then (true, Function.update t key (some value))
  else (false, t)

/-- The key is absent or held with the given tag. -/
def Fits (t : Table κ ν) (key : κ) (ty : τ) : Prop := ∀ old, t key = some old → tag old = ty

/-! ## §1 — one put. -/

theorem put_of_fits {t : Table κ ν} {key : κ} {value : ν} (h : t.Fits tag key (tag value)) :
    t.put tag key value = (true, Function.update t key (some value)) := by
  unfold put
  cases hold : t key with
  | none => rfl
  | some old => exact if_pos (h old hold)

theorem put_of_not_fits {t : Table κ ν} {key : κ} {value : ν} (h : ¬ t.Fits tag key (tag value)) :
    t.put tag key value = (false, t) := by
  unfold put
  cases hold : t key with
  | none =>
      refine absurd (fun old hold' => ?_) h
      rw [hold] at hold'
      cases hold'
  | some old =>
      refine if_neg fun htag => h fun old' hold' => ?_
      rw [hold, Option.some.injEq] at hold'
      rw [← hold', htag]

theorem put_self {t : Table κ ν} {key : κ} {value : ν} (h : t.Fits tag key (tag value)) :
    (t.put tag key value).2 key = some value := by
  rw [put_of_fits tag h]
  exact Function.update_self ..

/-- **A put succeeds exactly when the value fits.** -/
theorem put_succeeds_iff (t : Table κ ν) (key : κ) (value : ν) :
    (t.put tag key value).1 = true ↔ t.Fits tag key (tag value) := by
  by_cases h : t.Fits tag key (tag value)
  · rw [put_of_fits tag h]; exact ⟨fun _ => h, fun _ => rfl⟩
  · rw [put_of_not_fits tag h]; exact ⟨fun hf => absurd hf Bool.false_ne_true,
      fun hf => absurd hf h⟩

/-- A put leaves every other key alone. -/
theorem put_other (t : Table κ ν) {key key' : κ} (value : ν) (h : key' ≠ key) :
    (t.put tag key value).2 key' = t key' := by
  by_cases hfit : t.Fits tag key (tag value)
  · rw [put_of_fits tag hfit]
    exact Function.update_of_ne h ..
  · rw [put_of_not_fits tag hfit]

/-- What fits a key is not changed by puts that agree on the type of that key. -/
theorem put_fits {t : Table κ ν} {key key' : κ} {value : ν} {ty : τ}
    (hty : key' = key → tag value = ty) :
    (t.put tag key value).2.Fits tag key' ty ↔ t.Fits tag key' ty := by
  by_cases hkey : key' = key
  · subst hkey
    obtain rfl := hty rfl
    by_cases hfit : t.Fits tag key' (tag value)
    · refine ⟨fun _ => hfit, fun _ old hold => ?_⟩
      rw [put_self tag hfit, Option.some.injEq] at hold
      rw [hold]
    · rw [put_of_not_fits tag hfit]
  · unfold Fits
    rw [put_other tag t value hkey]

/-! ## §2 — a sequence of puts whose results are ignored. -/

/-- One put after the other. -/
def putAll (t : Table κ ν) (ps : List (κ × ν)) : Table κ ν :=
  ps.foldl (fun t p => (t.put tag p.1 p.2).2) t

@[simp] theorem putAll_nil (t : Table κ ν) : t.putAll tag [] = t := rfl

@[simp] theorem putAll_cons (t : Table κ ν) (p : κ × ν) (ps : List (κ × ν)) :
    t.putAll tag (p :: ps) = (t.put tag p.1 p.2).2.putAll tag ps := rfl

theorem putAll_other {t : Table κ ν} {key : κ} {ps : List (κ × ν)} (h : ∀ p ∈ ps, p.1 ≠ key) :
    t.putAll tag ps key = t key := by
  induction ps generalizing t with
  | nil => rfl
  | cons p ps ih =>
      have hne : key ≠ p.1 := fun he => h p List.mem_cons_self he.symm
      rw [putAll_cons, ih fun q hq => h q (List.mem_cons_of_mem _ hq), put_other tag t p.2 hne]

/-- What fits a key is the same before and after puts of one type to that key. -/
theorem putAll_fits {t : Table κ ν} {key : κ} {ty : τ} {ps : List (κ × ν)}
    (h : ∀ p ∈ ps, p.1 = key → tag p.2 = ty) : (t.putAll tag ps).Fits tag key ty
      ↔ t.Fits tag key ty := by
  induction ps generalizing t with
  | nil => rfl
  | cons p ps ih =>
      rw [putAll_cons, ih fun q hq => h q (List.mem_cons_of_mem _ hq)]
      exact put_fits tag fun he => h p List.mem_cons_self he.symm

/-- A put on a key reads nothing but the entry of that key. -/
theorem put_self_congr {t t' : Table κ ν} {key : κ} (h : t key = t' key) (value : ν) :
    (t.put tag key value).2 key = (t'.put tag key value).2 key := by
  have hiff : t.Fits tag key (tag value) ↔ t'.Fits tag key (tag value) := by unfold Fits; rw [h]
  by_cases hfit : t.Fits tag key (tag value)
  · rw [put_self tag hfit, put_self tag (hiff.mp hfit)]
  · rw [put_of_not_fits tag hfit, put_of_not_fits tag fun hf => hfit (hiff.mpr hf)]
    exact h

/-- **Puts to different keys do not see each other**: each key ends as after its own put. -/
theorem putAll_of_mem {t : Table κ ν} {key : κ} {value : ν} {ps : List (κ × ν)}
    (hnodup : (ps.map Prod.fst).Nodup) (hp : (key, value) ∈ ps) :
    t.putAll tag ps key = (t.put tag key value).2 key := by
  induction ps generalizing t with
  | nil => exact absurd hp List.not_mem_nil
  | cons p ps ih =>
      rw [List.map_cons, List.nodup_cons] at hnodup
      obtain ⟨hnew, hnodup⟩ := hnodup
      rcases List.mem_cons.mp hp with rfl | hp
      · have hother : ∀ q ∈ ps, q.1 ≠ key := by
          intro q hq he
          exact hnew (List.mem_map.mpr ⟨q, hq, he⟩)
        rw [putAll_cons, putAll_other tag hother]
      · have hne : key ≠ p.1 := fun he => hnew (he ▸ List.mem_map_of_mem hp)
        rw [putAll_cons, ih hnodup hp]
        exact put_self_congr tag (put_other tag t p.2 hne) value

/-! ## §3 — when every put succeeds. -/

/-- Every put of the sequence returns true. -/
def AllSucceed (t : Table κ ν) (ps : List (κ × ν)) : Prop :=
  ∀ pre p post, ps = pre ++ p :: post → ((t.putAll tag pre).put tag p.1 p.2).1 = true

/-- One replacement after the other. -/
def written (t : Table κ ν) (ps : List (κ × ν)) : Table κ ν :=
  ps.foldl (fun t p => Function.update t p.1 (some p.2)) t

theorem written_append (t : Table κ ν) (ps qs : List (κ × ν)) :
    t.written (ps ++ qs) = (t.written ps).written qs := List.foldl_append

/-- Puts that all succeed are replacements. -/
theorem putAll_eq_written {t : Table κ ν} {ps : List (κ × ν)} (h : t.AllSucceed tag ps) :
    t.putAll tag ps = t.written ps := by
  induction ps generalizing t with
  | nil => rfl
  | cons p ps ih =>
      have hfit := (put_succeeds_iff tag t p.1 p.2).mp (h [] p ps rfl)
      have hrest : ((t.put tag p.1 p.2).2).AllSucceed tag ps := by
        rintro pre q post rfl
        exact h (p :: pre) q post rfl
      rw [putAll_cons, ih hrest, put_of_fits tag hfit]
      rfl

/-- Puts that fit the first table, each key with one type, all succeed. -/
theorem allSucceed_of_fits {t : Table κ ν} {ps : List (κ × ν)} (ty : κ → τ)
    (hty : ∀ p ∈ ps, tag p.2 = ty p.1) (hfit : ∀ p ∈ ps, t.Fits tag p.1 (ty p.1)) :
    t.AllSucceed tag ps := by
  rintro pre p post rfl
  have hmem : p ∈ pre ++ p :: post := by simp
  rw [put_succeeds_iff, hty p hmem]
  refine (putAll_fits tag fun q hq he => ?_).mpr (hfit p hmem)
  rw [hty q (by simp [hq]), he]

/-! ## §4 — when every put changes the entry. -/

/-- Every put to the key leaves the entry different from what it was. -/
def AlwaysChanges (key : κ) (t : Table κ ν) (ps : List (κ × ν)) : Prop :=
  ∀ pre p post, ps = pre ++ p :: post → p.1 = key →
    t.putAll tag (pre ++ [p]) key ≠ t.putAll tag pre key

theorem alwaysChanges_cons (key : κ) (t : Table κ ν) (p : κ × ν) (ps : List (κ × ν)) :
    t.AlwaysChanges tag key (p :: ps) ↔
      (p.1 = key → (t.put tag p.1 p.2).2 key ≠ t key) ∧
        (t.put tag p.1 p.2).2.AlwaysChanges tag key ps := by
  constructor
  · intro h
    refine ⟨h [] p ps rfl, ?_⟩
    rintro pre q post rfl hq
    exact h (p :: pre) q post rfl hq
  · rintro ⟨hp, hrest⟩ pre q post heq hq
    cases pre with
    | nil =>
        obtain ⟨rfl, _⟩ := List.cons.inj heq
        exact hp hq
    | cons p' pre =>
        obtain ⟨rfl, htail⟩ := List.cons.inj heq
        exact hrest pre q post htail hq

/-- The values put to a key, in order. -/
def valuesAt (key : κ) (ps : List (κ × ν)) : List ν := (ps.filter (·.1 = key)).map Prod.snd

theorem valuesAt_append (key : κ) (ps qs : List (κ × ν)) :
    valuesAt key (ps ++ qs) = valuesAt key ps ++ valuesAt key qs := by
  simp [valuesAt]

/-- **The entry after a sequence of puts** whose types fit is the last value put to the key, if
any. -/
theorem putAll_entry {t : Table κ ν} {key : κ} {ty : τ} {ps : List (κ × ν)}
    (hty : ∀ p ∈ ps, p.1 = key → tag p.2 = ty) (hfit : t.Fits tag key ty) :
    t.putAll tag ps key = (valuesAt key ps).getLast?.or (t key) := by
  induction ps generalizing t with
  | nil => rfl
  | cons p ps ih =>
      have hps : ∀ q ∈ ps, q.1 = key → tag q.2 = ty := fun q hq => hty q (List.mem_cons_of_mem _ hq)
      have hfit' : (t.put tag p.1 p.2).2.Fits tag key ty :=
        (put_fits tag fun he => hty p List.mem_cons_self he.symm).mpr hfit
      rw [putAll_cons, ih hps hfit']
      by_cases hkey : p.1 = key
      · have hvalue : tag p.2 = ty := hty p List.mem_cons_self hkey
        subst hkey
        have hvalues : valuesAt p.1 (p :: ps) = p.2 :: valuesAt p.1 ps := by simp [valuesAt]
        rw [hvalues, List.getLast?_cons, put_self tag (hvalue ▸ hfit)]
        cases (valuesAt p.1 ps).getLast? <;> rfl
      · have hvalues : valuesAt key (p :: ps) = valuesAt key ps := by simp [valuesAt, hkey]
        rw [hvalues, put_other tag t p.2 (Ne.symm hkey)]

/-- Puts whose types do not fit leave the entry as it is. -/
theorem putAll_blocked {t : Table κ ν} {key : κ} {ty : τ} {ps : List (κ × ν)}
    (hty : ∀ p ∈ ps, p.1 = key → tag p.2 = ty) (hfit : ¬ t.Fits tag key ty) :
    t.putAll tag ps key = t key := by
  induction ps generalizing t with
  | nil => rfl
  | cons p ps ih =>
      have hps : ∀ q ∈ ps, q.1 = key → tag q.2 = ty := fun q hq => hty q (List.mem_cons_of_mem _ hq)
      have hfit' : ¬ (t.put tag p.1 p.2).2.Fits tag key ty := by
        rwa [put_fits tag fun he => hty p List.mem_cons_self he.symm]
      rw [putAll_cons, ih hps hfit']
      by_cases hkey : p.1 = key
      · have hvalue : tag p.2 = ty := hty p List.mem_cons_self hkey
        subst hkey
        rw [put_of_not_fits tag (hvalue ▸ hfit)]
      · exact put_other tag t p.2 (Ne.symm hkey)

/-- One put changes the entry exactly when it fits and is not what the entry holds. -/
theorem put_changes_iff (t : Table κ ν) (key : κ) (value : ν) :
    (t.put tag key value).2 key ≠ t key ↔ t.Fits tag key (tag value) ∧ t key ≠ some value := by
  by_cases hfit : t.Fits tag key (tag value)
  · rw [put_self tag hfit]
    exact ⟨fun h => ⟨hfit, h.symm⟩, fun h => h.2.symm⟩
  · rw [put_of_not_fits tag hfit]
    exact ⟨fun h => absurd rfl h, fun h => absurd h.1 hfit⟩

/-- **Every put to a key changes the entry exactly when** the type fits the first table and no value
is the one before it, the entry of the first table included. -/
theorem alwaysChanges_iff {key : κ} {ty : τ} {ps : List (κ × ν)}
    (h : ∀ p ∈ ps, p.1 = key → tag p.2 = ty) (t : Table κ ν) :
    t.AlwaysChanges tag key ps ↔ (valuesAt key ps ≠ [] → t.Fits tag key ty) ∧
      List.IsChain (· ≠ ·) (t key :: (valuesAt key ps).map some) := by
  induction ps generalizing t with
  | nil => simp [AlwaysChanges, valuesAt]
  | cons p ps ih =>
      have hps : ∀ q ∈ ps, q.1 = key → tag q.2 = ty := fun q hq => h q (List.mem_cons_of_mem _ hq)
      rw [alwaysChanges_cons, ih hps]
      by_cases hkey : p.1 = key
      -- a put to the key: the rest of the chain starts from its value
      · have hty := h p List.mem_cons_self hkey
        subst hkey
        have hvalues : valuesAt p.1 (p :: ps) = p.2 :: valuesAt p.1 ps := by simp [valuesAt]
        rw [hvalues, List.map_cons, List.isChain_cons_cons, put_fits tag fun _ => hty]
        constructor
        · rintro ⟨hp, _, hchain⟩
          obtain ⟨hfit, hne⟩ := (put_changes_iff tag t p.1 p.2).mp (hp rfl)
          rw [put_self tag hfit] at hchain
          exact ⟨fun _ => hty ▸ hfit, hne, hchain⟩
        · rintro ⟨hfit, hne, hchain⟩
          have hfit' : t.Fits tag p.1 (tag p.2) := hty ▸ hfit (List.cons_ne_nil _ _)
          refine ⟨fun _ => (put_changes_iff tag t p.1 p.2).mpr ⟨hfit', hne⟩,
            fun _ => hty ▸ hfit', ?_⟩
          rw [put_self tag hfit']
          exact hchain
      -- a put to another key: entry and type are as before
      · have hvalues : valuesAt key (p :: ps) = valuesAt key ps := by simp [valuesAt, hkey]
        rw [hvalues, put_fits tag fun he => absurd he.symm hkey, put_other tag t p.2 (Ne.symm hkey)]
        exact ⟨fun hr => hr.2, fun hr => ⟨fun he => absurd he hkey, hr⟩⟩

end Table

end NinjaVision.Lib
