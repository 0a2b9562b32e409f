import Mathlib.Data.List.Basic

/-!
# Longest matches

The longest front of a list that is in a language. Where no two items can stand at the
front of one list, a sequence of items is read in one way only, and it is the longest when
no item stands behind it.
-/

namespace Foundation
set_option autoImplicit false

variable {α β : Type} {L : List α → Prop} {text part other : List α}

structure Longest (L : List α → Prop) (text part : List α) : Prop where
  at_front : part <+: text
  matched : L part
  longest : ∀ other, other <+: text → L other → other <+: part

theorem Longest.unique (h : Longest L text part) (hother : Longest L text other) :
    part = other := by
  have hle := (hother.longest part h.at_front h.matched).length_le
  have hge := h.longest other hother.at_front hother.matched
  exact (hge.eq_of_length_le hle).symm

theorem longest_of_length (hfront : part <+: text) (hmatched : L part)
    (h : ∀ other, other <+: text → L other → other.length ≤ part.length) :
    Longest L text part where
  at_front := hfront
  matched := hmatched
  longest := fun other hother hmatched =>
    List.prefix_of_prefix_length_le hother hfront (h other hother hmatched)

theorem Longest.stops {rest : List α} (h : Longest L (part ++ rest) part) {a : α}
    (ha : a ∈ rest.head?) : ¬ L (part ++ [a]) := by
  intro hlonger
  cases rest with
  | nil => exact nomatch ha
  | cons b rest =>
    cases Option.mem_some.mp ha
    have hle := (h.longest _ ⟨rest, by simp⟩ hlonger).length_le
    rw [List.length_append, List.length_singleton] at hle
    exact Nat.not_succ_le_self _ hle

/-- A list of items, each with its values, one behind the other. -/
inductive Sequence (Item : List α → List β → Prop) : List α → List β → Prop where
  | nil : Sequence Item [] []
  | cons {part rest : List α} {values more : List β} : Item part values →
      Sequence Item rest more → Sequence Item (part ++ rest) (values ++ more)

/-- At most one item stands at the front of a list. -/
structure Unambiguous (Item : List α → List β → Prop) : Prop where
  ne_nil : ∀ {part values}, Item part values → part ≠ []
  unique : ∀ {text part other values others}, part <+: text → other <+: text →
    Item part values → Item other others → part = other ∧ values = others

section Items
variable {Item : List α → List β → Prop} {rest front : List α} {values others : List β}

theorem Sequence.single (h : Item part values) : Sequence Item part values := by
  have hseq : Sequence Item (part ++ []) (values ++ []) := .cons h .nil
  rwa [List.append_nil, List.append_nil] at hseq

theorem Sequence.append (h : Sequence Item part values) (hrest : Sequence Item rest others) :
    Sequence Item (part ++ rest) (values ++ others) := by
  induction h with
  | nil => exact hrest
  | cons hitem _ ih =>
    rw [List.append_assoc, List.append_assoc]
    exact .cons hitem ih

/-- Two sequences at the front of one list: the one with no item behind it is the longer. -/
theorem sequence_fronts (hitem : Unambiguous Item) (hseq : Sequence Item front values)
    (hstop : ∀ part xs, Item part xs → ¬ part <+: rest)
    (hother : Sequence Item other others) (hfront : other <+: front ++ rest) :
    ∃ more moreValues, front = other ++ more ∧ values = others ++ moreValues := by
  induction hother generalizing front values with
  | nil => exact ⟨front, values, rfl, rfl⟩
  | @cons part tail xs more hpart htail ih =>
    have hpart_front : part <+: front ++ rest := (List.prefix_append part tail).trans hfront
    cases hseq with
    | nil => exact absurd hpart_front (hstop part xs hpart)
    | @cons first behind ys last hfirst hbehind =>
      have hfirst_front : first <+: first ++ behind ++ rest := by
        rw [List.append_assoc]
        exact List.prefix_append first _
      obtain ⟨rfl, rfl⟩ := hitem.unique hpart_front hfirst_front hpart hfirst
      rw [List.append_assoc, List.prefix_append_right_inj] at hfront
      obtain ⟨left, leftValues, rfl, rfl⟩ := ih hbehind hfront
      exact ⟨left, leftValues, (List.append_assoc ..).symm, (List.append_assoc ..).symm⟩

theorem sequence_longest (hitem : Unambiguous Item) (hseq : Sequence Item front values)
    (hstop : ∀ part xs, Item part xs → ¬ part <+: rest) :
    Longest (fun part => ∃ xs, Sequence Item part xs) (front ++ rest) front where
  at_front := List.prefix_append front rest
  matched := ⟨values, hseq⟩
  longest := by
    rintro other hfront ⟨others, hother⟩
    obtain ⟨more, _, rfl, _⟩ := sequence_fronts hitem hseq hstop hother hfront
    exact List.prefix_append other more

/-- The values of the front of a sequence are the front of its values. -/
theorem sequence_prefix (hitem : Unambiguous Item) (hseq : Sequence Item front values)
    (hother : Sequence Item other others) (hfront : other <+: front) :
    ∃ more, values = others ++ more := by
  have hstop : ∀ part xs, Item part xs → ¬ part <+: [] := by
    intro part xs hpart hnil
    exact hitem.ne_nil hpart (List.prefix_nil.mp hnil)
  rw [← List.append_nil front] at hfront
  obtain ⟨_, more, _, hmore⟩ := sequence_fronts hitem hseq hstop hother hfront
  exact ⟨more, hmore⟩

theorem sequence_values (hitem : Unambiguous Item) (hseq : Sequence Item front values)
    (hother : Sequence Item front others) : values = others := by
  obtain ⟨more, hvalues⟩ := sequence_prefix hitem hseq hother List.prefix_rfl
  obtain ⟨back, hothers⟩ := sequence_prefix hitem hother hseq List.prefix_rfl
  have hlength := congrArg List.length hvalues
  have hback := congrArg List.length hothers
  rw [List.length_append] at hlength hback
  have hnil : more = [] := List.length_eq_zero_iff.mp (by omega)
  rw [hvalues, hnil, List.append_nil]

end Items

end Foundation
