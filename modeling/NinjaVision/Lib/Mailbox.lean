/-
# NinjaVision.Lib.Mailbox — the one-slot mailbox and the laws of its histories.

A writer delivers values into a single slot, overwriting what is there; a reader polls the slot and
empties it. A history lists deliveries and polls, each poll with the answer it gave. It is *legal*
when every answer is what the slot contained at that moment. For legal histories this module proves
what a reader may rely on, without mentioning the slot:

* `fresh_iff` — a poll answers `true` exactly when something was delivered since the last such poll;
* `getLast?_delivered` — what is in the slot is the latest delivery;
* `consumed_pairwise` — successful polls consume deliveries in delivery order, none of them twice;
* `delivery_fate` — each delivery is consumed, still pending, or superseded by the next one;
* `taken_eq`, `taken_sublist` — the values that the reader finds are those of the consumed
  deliveries, a sublist of all values delivered.

All inductions run over the history from its end, one event at a time.
-/
import NinjaVision.Lib.Machine

namespace NinjaVision.Lib.Mailbox

/-- One event at a mailbox. -/
inductive Event (α : Type*) where
  | deliver (a : α)
  | poll (took : Bool)
  deriving DecidableEq, Repr

variable {α : Type*}

/-- What an event leaves in the slot. -/
def Event.after : Option α → Event α → Option α
  | _, .deliver a => some a
  | _, .poll _ => none

/-- An event is possible when a poll answers what the slot says. -/
def Event.Possible : Option α → Event α → Prop
  | _, .deliver _ => True
  | slot, .poll took => took = slot.isSome

/-- The slot after a history, from an empty slot. -/
def slot (h : List (Event α)) : Option α := h.foldl Event.after none

/-- Every event of the history was possible when it happened. -/
def Legal (h : List (Event α)) : Prop :=
  ∀ pre e post, h = pre ++ e :: post → e.Possible (slot pre)

/-- The values delivered, in order. -/
def delivered : List (Event α) → List α
  | [] => []
  | .deliver a :: h => a :: delivered h
  | .poll _ :: h => delivered h

/-- For each successful poll, the index of the latest delivery before it; `n` deliveries came
before. -/
def consumedFrom : ℕ → List (Event α) → List ℕ
  | _, [] => []
  | n, .deliver _ :: h => consumedFrom (n + 1) h
  | n, .poll true :: h => (n - 1) :: consumedFrom n h
  | n, .poll false :: h => consumedFrom n h

/-- The deliveries consumed by a history, by index. -/
def consumed (h : List (Event α)) : List ℕ := consumedFrom 0 h

/-- Something was delivered since the last successful poll, or since the beginning. -/
def Fresh (h : List (Event α)) : Prop :=
  ∃ pre a post, h = pre ++ .deliver a :: post ∧ Event.poll true ∉ post

/-- The delivery of index `k` was followed by another delivery with no poll in between. -/
def Superseded (h : List (Event α)) (k : ℕ) : Prop :=
  ∃ pre a b post, h = pre ++ .deliver a :: .deliver b :: post ∧ (delivered pre).length = k

/-! ## §1 — one event at the end. -/

@[simp] theorem slot_nil : slot ([] : List (Event α)) = none := rfl

@[simp] theorem slot_concat (h : List (Event α)) (e : Event α) :
    slot (h ++ [e]) = e.after (slot h) := by
  simp [slot]

@[simp] theorem delivered_append (h h' : List (Event α)) :
    delivered (h ++ h') = delivered h ++ delivered h' := by
  induction h with
  | nil => rfl
  | cons e h ih => cases e <;> simp [delivered, ih]

theorem consumedFrom_append (n : ℕ) (h h' : List (Event α)) :
    consumedFrom n (h ++ h') = consumedFrom n h ++ consumedFrom (n + (delivered h).length) h' := by
  induction h generalizing n with
  | nil => rfl
  | cons e h ih =>
      rcases e with a | took
      · simp only [List.cons_append, consumedFrom, delivered, List.length_cons, ih]
        congr 2
        omega
      · cases took <;> simp [consumedFrom, delivered, ih]

theorem consumed_deliver (h : List (Event α)) (a : α) :
    consumed (h ++ [.deliver a]) = consumed h := by
  simp [consumed, consumedFrom_append, consumedFrom]

theorem consumed_miss (h : List (Event α)) : consumed (h ++ [.poll false]) = consumed h := by
  simp [consumed, consumedFrom_append, consumedFrom]

theorem consumed_take (h : List (Event α)) :
    consumed (h ++ [.poll true]) = consumed h ++ [(delivered h).length - 1] := by
  simp [consumed, consumedFrom_append, consumedFrom]

@[simp] theorem legal_nil : Legal ([] : List (Event α)) := by
  intro pre e post h
  simp at h

theorem legal_concat {h : List (Event α)} {e : Event α} :
    Legal (h ++ [e]) ↔ Legal h ∧ e.Possible (slot h) := by
  constructor
  · intro hl
    refine ⟨?_, hl h e [] rfl⟩
    rintro pre e' post rfl
    exact hl pre e' (post ++ [e]) (by simp)
  · rintro ⟨hl, he⟩ pre e' post heq
    rcases concat_split heq with ⟨_, rfl, rfl⟩ | ⟨post', _, rfl⟩
    · exact he
    · exact hl pre e' post' rfl

/-- A full slot means that the history ends with the delivery of its content. -/
theorem eq_concat_of_slot {h : List (Event α)} {a : α} (hs : slot h = some a) :
    ∃ pre, h = pre ++ [.deliver a] := by
  induction h using List.reverseRecOn with
  | nil => simp at hs
  | append_singleton h e _ =>
      rw [slot_concat] at hs
      cases e with
      | deliver b =>
          obtain rfl : b = a := Option.some.inj hs
          exact ⟨h, rfl⟩
      | poll took => simp [Event.after] at hs

/-! ## §2 — what a poll answers. -/

theorem fresh_deliver (h : List (Event α)) (a : α) : Fresh (h ++ [.deliver a]) :=
  ⟨h, a, [], rfl, by simp⟩

theorem not_fresh_take (h : List (Event α)) : ¬ Fresh (h ++ [.poll true]) := by
  rintro ⟨pre, a, post, heq, hpost⟩
  rcases concat_split heq with ⟨_, _, he⟩ | ⟨post', rfl, _⟩
  · cases he
  · exact hpost (by simp)

theorem fresh_miss {h : List (Event α)} (hf : Fresh (h ++ [.poll false])) : Fresh h := by
  obtain ⟨pre, a, post, heq, hpost⟩ := hf
  rcases concat_split heq with ⟨_, _, he⟩ | ⟨post', rfl, rfl⟩
  · cases he
  · exact ⟨pre, a, post', rfl, fun hm => hpost (by simp [hm])⟩

/-- **Freshness is a full slot**: the next poll of a legal history answers `true` exactly when there
was a delivery since the last poll that did. -/
theorem fresh_iff {h : List (Event α)} (hl : Legal h) : (slot h).isSome = true ↔ Fresh h := by
  induction h using List.reverseRecOn with
  | nil => simp [Fresh]
  | append_singleton h e ih =>
      obtain ⟨hlh, he⟩ := legal_concat.mp hl
      rw [slot_concat]
      cases e with
      | deliver a => simp [Event.after, fresh_deliver]
      | poll took =>
          cases took with
          | true => simp [Event.after, not_fresh_take]
          | false =>
              -- the slot was empty and still is, so what was stale stays stale
              have hempty : ¬ (slot h).isSome = true := by
                rw [← he]; simp
              have hstale : ¬ Fresh (h ++ [.poll false]) :=
                fun hf => hempty ((ih hlh).mpr (fresh_miss hf))
              simp [Event.after, hstale]

/-- **The slot holds the latest delivery.** -/
theorem getLast?_delivered {h : List (Event α)} {a : α} (hs : slot h = some a) :
    (delivered h).getLast? = some a := by
  obtain ⟨pre, rfl⟩ := eq_concat_of_slot hs
  simp [delivered]

/-! ## §3 — what becomes of a delivery. -/

/-- Deliveries before the pending one, or all of them when none is pending, bound the consumed
ones. -/
theorem consumed_lt {h : List (Event α)} (hl : Legal h) :
    ∀ k ∈ consumed h, k + (slot h).toList.length < (delivered h).length := by
  induction h using List.reverseRecOn with
  | nil => simp [consumed, consumedFrom]
  | append_singleton h e ih =>
      obtain ⟨hlh, he⟩ := legal_concat.mp hl
      intro k hk
      rw [slot_concat, delivered_append]
      cases e with
      | deliver a =>
          rw [consumed_deliver] at hk
          have := ih hlh k hk
          simp [Event.after, delivered]
          omega
      | poll took =>
          cases took with
          | false =>
              rw [consumed_miss] at hk
              have := ih hlh k hk
              simp [Event.after, delivered]
              omega
          | true =>
              rw [consumed_take, List.mem_append] at hk
              obtain ⟨a, ha⟩ := Option.isSome_iff_exists.mp (Eq.symm he)
              obtain ⟨pre, rfl⟩ := eq_concat_of_slot ha
              -- the slot was full, so the history ends with the delivery that is consumed now
              simp only [Event.after, delivered, delivered_append, Option.toList_none,
                List.length_nil, List.length_append, List.length_cons, List.append_nil]
              rcases hk with hk | hk
              · have := ih hlh k hk
                simp only [delivered_append, delivered, List.length_append, List.length_cons,
                  List.length_nil] at this
                omega
              · simp only [delivered_append, delivered, List.length_append, List.length_cons,
                  List.length_nil, List.mem_singleton] at hk
                omega

/-- **Consumption keeps the delivery order**: the indices consumed are strictly increasing, so no
delivery is consumed twice. -/
theorem consumed_pairwise {h : List (Event α)} (hl : Legal h) : (consumed h).Pairwise (· < ·) := by
  induction h using List.reverseRecOn with
  | nil => exact List.Pairwise.nil
  | append_singleton h e ih =>
      obtain ⟨hlh, he⟩ := legal_concat.mp hl
      cases e with
      | deliver a => rw [consumed_deliver]; exact ih hlh
      | poll took =>
          cases took with
          | false => rw [consumed_miss]; exact ih hlh
          | true =>
              rw [consumed_take, List.pairwise_append]
              refine ⟨ih hlh, List.pairwise_singleton _ _, ?_⟩
              intro k hk j hj
              obtain rfl := List.mem_singleton.mp hj
              have hlt := consumed_lt hlh k hk
              obtain ⟨a, ha⟩ := Option.isSome_iff_exists.mp (Eq.symm he)
              rw [ha] at hlt
              simp only [Option.toList_some, List.length_cons, List.length_nil] at hlt
              omega

theorem Superseded.concat {h : List (Event α)} {k : ℕ} (hs : Superseded h k) (e : Event α) :
    Superseded (h ++ [e]) k := by
  obtain ⟨pre, a, b, post, rfl, hk⟩ := hs
  exact ⟨pre, a, b, post ++ [e], by simp, hk⟩

/-- **The fate of a delivery**: it was consumed, or it is the latest one and still pending, or the
next delivery replaced it unread. -/
theorem delivery_fate {h : List (Event α)} (hl : Legal h) :
    ∀ k < (delivered h).length,
      k ∈ consumed h ∨ (k + 1 = (delivered h).length ∧ (slot h).isSome = true) ∨
        Superseded h k := by
  induction h using List.reverseRecOn with
  | nil => simp [delivered]
  | append_singleton h e ih =>
      obtain ⟨hlh, he⟩ := legal_concat.mp hl
      intro k hk
      rw [slot_concat]
      cases e with
      | deliver b =>
          rw [consumed_deliver]
          simp only [delivered_append, delivered, List.length_append, List.length_cons,
            List.length_nil] at hk ⊢
          by_cases hnew : k = (delivered h).length
          · exact Or.inr (Or.inl ⟨by omega, rfl⟩)
          rcases ih hlh k (by omega) with hc | ⟨hlast, hslot⟩ | hsup
          · exact Or.inl hc
          · -- the pending delivery is the last event, and the new one replaces it
            obtain ⟨a, ha⟩ := Option.isSome_iff_exists.mp hslot
            obtain ⟨pre, rfl⟩ := eq_concat_of_slot ha
            refine Or.inr (Or.inr ⟨pre, a, b, [], by simp, ?_⟩)
            simp only [delivered_append, delivered, List.length_append, List.length_cons,
              List.length_nil] at hlast
            omega
          · exact Or.inr (Or.inr (hsup.concat _))
      | poll took =>
          simp only [delivered_append, delivered, List.append_nil] at hk ⊢
          cases took with
          | false =>
              rw [consumed_miss]
              rcases ih hlh k hk with hc | ⟨_, hslot⟩ | hsup
              · exact Or.inl hc
              · exact absurd (he.trans hslot) Bool.false_ne_true
              · exact Or.inr (Or.inr (hsup.concat _))
          | true =>
              rw [consumed_take]
              rcases ih hlh k hk with hc | ⟨hlast, _⟩ | hsup
              · exact Or.inl (List.mem_append_left _ hc)
              · exact Or.inl (List.mem_append_right _ (by simp; omega))
              · exact Or.inr (Or.inr (hsup.concat _))

/-! ## §4 — the values consumed. -/

/-- What an event takes out of the slot. -/
def Event.takes : Option α → Event α → List α
  | _, .deliver _ => []
  | _, .poll false => []
  | slot, .poll true => slot.toList

/-- The values taken by a history that begins with the given slot. -/
def takenFrom : Option α → List (Event α) → List α
  | _, [] => []
  | slot, e :: h => e.takes slot ++ takenFrom (e.after slot) h

/-- The values that the successful polls of a history find, in order. -/
def taken (h : List (Event α)) : List α := takenFrom none h

theorem takenFrom_concat (s : Option α) (h : List (Event α)) (e : Event α) :
    takenFrom s (h ++ [e]) = takenFrom s h ++ e.takes (h.foldl Event.after s) := by
  induction h generalizing s with
  | nil => simp [takenFrom]
  | cons e' h ih =>
      rw [List.cons_append, takenFrom, takenFrom, ih, List.foldl_cons, List.append_assoc]

theorem taken_concat (h : List (Event α)) (e : Event α) :
    taken (h ++ [e]) = taken h ++ e.takes (slot h) :=
  takenFrom_concat none h e

/-- **The values taken are those of the consumed deliveries.** -/
theorem taken_eq {h : List (Event α)} (hl : Legal h) :
    (taken h).map some = (consumed h).map fun k => (delivered h)[k]? := by
  induction h using List.reverseRecOn with
  | nil => rfl
  | append_singleton h e ih =>
      obtain ⟨hlh, he⟩ := legal_concat.mp hl
      have hold := ih hlh
      rw [taken_concat, delivered_append]
      cases e with
      | deliver a =>
          rw [consumed_deliver, Event.takes, List.append_nil, hold]
          -- a consumed delivery is one before the new one
          refine List.map_congr_left fun k hk => ?_
          have hlt := consumed_lt hlh k hk
          rw [List.getElem?_append_left (by omega)]
      | poll took =>
          rw [delivered, delivered, List.append_nil]
          cases took with
          | false => rw [consumed_miss, Event.takes, List.append_nil, hold]
          | true =>
              obtain ⟨a, ha⟩ := Option.isSome_iff_exists.mp (Eq.symm he)
              have hlast := getLast?_delivered ha
              rw [List.getLast?_eq_getElem?] at hlast
              rw [consumed_take, List.map_append, List.map_append, hold, Event.takes, ha,
                List.map_singleton, hlast]
              rfl

/-- **Deliveries are taken in order**, and the pending one has not been taken yet. -/
theorem taken_sublist {h : List (Event α)} (hl : Legal h) :
    (taken h ++ (slot h).toList).Sublist (delivered h) := by
  induction h using List.reverseRecOn with
  | nil => exact List.Sublist.slnil
  | append_singleton h e ih =>
      obtain ⟨hlh, he⟩ := legal_concat.mp hl
      have hold := ih hlh
      rw [taken_concat, slot_concat, delivered_append]
      cases e with
      | deliver a =>
          have htaken : (taken h).Sublist (delivered h) := (List.sublist_append_left _ _).trans hold
          rw [Event.takes, List.append_nil]
          exact htaken.append (List.Sublist.refl [a])
      | poll took =>
          cases took with
          | true =>
              rw [Event.takes, Event.after, Option.toList_none, List.append_nil, delivered,
                delivered, List.append_nil]
              exact hold
          | false =>
              have hempty : slot h = none :=
                Option.not_isSome_iff_eq_none.mp (by rw [← he]; exact Bool.false_ne_true)
              rw [hempty] at hold
              rw [Event.takes, List.append_nil, delivered, delivered, List.append_nil]
              exact hold

end NinjaVision.Lib.Mailbox
