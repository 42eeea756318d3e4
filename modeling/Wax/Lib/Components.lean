/-
Lists of strongly connected components, what they reach first.

Design.  `Layers` says of lists of vertices what a walk that emits them one by one can
see: within a list every vertex reaches every other, and no edge leads from a list
to a later one.  That the lists are the components then follows
(`Layers.mem_iff_mutual`): a way from one vertex to another and back cannot leave
the list it starts in.
-/
import Mathlib.Data.List.Nodup
import Mathlib.Logic.Relation

open Relation

variable {α : Type*} {E : α → α → Prop}

/-- Lists without a common vertex, each strongly connected, with edges only within
them and to earlier ones. -/
structure Layers (E : α → α → Prop) (cs : List (List α)) : Prop where
  nodup : cs.flatten.Nodup
  connected : ∀ c ∈ cs, ∀ a ∈ c, ∀ b ∈ c, ReflTransGen E a b
  backward : ∀ (i : ℕ) (c : List α), cs[i]? = some c → ∀ a ∈ c, ∀ b, E a b →
    ∃ j ≤ i, ∃ d, cs[j]? = some d ∧ b ∈ d

namespace Layers

variable {cs : List (List α)} {a b : α}

theorem nil : Layers E [] where
  nodup := List.nodup_nil
  connected c hc := by cases hc
  backward i c hc := by cases i <;> cases hc

/-- The earlier lists are closed under edges. -/
theorem closed (h : Layers E cs) (ha : a ∈ cs.flatten) (hab : E a b) : b ∈ cs.flatten := by
  obtain ⟨c, hc, ha⟩ := List.mem_flatten.mp ha
  obtain ⟨i, hi⟩ := List.getElem?_of_mem hc
  obtain ⟨j, -, d, hj, hb⟩ := h.backward i c hi a ha b hab
  exact List.mem_flatten.mpr ⟨d, List.mem_of_getElem? hj, hb⟩

/-- One more list, with edges only within it and to the earlier ones. -/
theorem snoc (h : Layers E cs) {c : List α} (hnodup : c.Nodup) (hdisj : ∀ a ∈ c, a ∉ cs.flatten)
    (hconn : ∀ a ∈ c, ∀ b ∈ c, ReflTransGen E a b)
    (hback : ∀ a ∈ c, ∀ b, E a b → b ∈ c ∨ b ∈ cs.flatten) : Layers E (cs ++ [c]) where
  nodup := by
    rw [List.flatten_append, List.flatten_singleton, List.nodup_append]
    exact ⟨h.nodup, hnodup, fun x hx y hy hxy => hdisj y hy (hxy ▸ hx)⟩
  connected d hd := by
    rcases List.mem_append.mp hd with hd | hd
    · exact h.connected d hd
    · rw [List.mem_singleton.mp hd]
      exact hconn
  backward i d hd a ha b hab := by
    have hlast : (cs ++ [c])[cs.length]? = some c := by
      rw [List.getElem?_append_right (Nat.le_refl _), Nat.sub_self]
      rfl
    rw [List.getElem?_append] at hd
    split at hd
    · obtain ⟨j, hj, d', hd', hb⟩ := h.backward i d hd a ha b hab
      refine ⟨j, hj, d', ?_, hb⟩
      rw [List.getElem?_append_left (List.getElem?_eq_some_iff.mp hd').1, hd']
    · next hi =>
      replace hi : cs.length ≤ i := Nat.le_of_not_lt hi
      obtain rfl : c = d := List.mem_singleton.mp (List.mem_of_getElem? hd) |>.symm
      rcases hback a ha b hab with hb | hb
      · exact ⟨cs.length, hi, c, hlast, hb⟩
      · obtain ⟨d', hd', hb⟩ := List.mem_flatten.mp hb
        obtain ⟨j, hj⟩ := List.getElem?_of_mem hd'
        have hlt := (List.getElem?_eq_some_iff.mp hj).1
        exact ⟨j, by omega, d', by rw [List.getElem?_append_left hlt, hj], hb⟩

/-- A vertex is in one list only. -/
theorem unique (h : Layers E cs) {i j : ℕ} {c d : List α} (hi : cs[i]? = some c)
    (hj : cs[j]? = some d) (hc : a ∈ c) (hd : a ∈ d) : i = j := by
  by_contra hne
  have hpair := (List.nodup_flatten.mp h.nodup).2
  rw [List.pairwise_iff_getElem] at hpair
  obtain ⟨hilt, rfl⟩ := List.getElem?_eq_some_iff.mp hi
  obtain ⟨hjlt, rfl⟩ := List.getElem?_eq_some_iff.mp hj
  rcases Nat.lt_or_gt_of_ne hne with hlt | hlt
  · exact hpair i j hilt hjlt hlt hc hd
  · exact hpair j i hjlt hilt hlt hd hc

/-- A way leads to no later list. -/
theorem reach_backward (h : Layers E cs) {i : ℕ} {c : List α} (hi : cs[i]? = some c) (ha : a ∈ c)
    (hab : ReflTransGen E a b) : ∃ j ≤ i, ∃ d, cs[j]? = some d ∧ b ∈ d := by
  induction hab with
  | refl => exact ⟨i, Nat.le_refl i, c, hi, ha⟩
  | tail _ hbc ih =>
    obtain ⟨j, hj, d, hd, hb⟩ := ih
    obtain ⟨k, hk, e, he, hc⟩ := h.backward j d hd _ hb _ hbc
    exact ⟨k, by omega, e, he, hc⟩

/-- **The lists are the strongly connected components.** -/
theorem mem_iff_mutual (h : Layers E cs) {c : List α} (hc : c ∈ cs) (ha : a ∈ c) :
    b ∈ c ↔ ReflTransGen E a b ∧ ReflTransGen E b a := by
  refine ⟨fun hb => ⟨h.connected c hc a ha b hb, h.connected c hc b hb a ha⟩, ?_⟩
  rintro ⟨hab, hba⟩
  obtain ⟨i, hi⟩ := List.getElem?_of_mem hc
  obtain ⟨j, hj, d, hd, hb⟩ := h.reach_backward hi ha hab
  obtain ⟨k, hk, e, he, ha'⟩ := h.reach_backward hd hb hba
  have hik := h.unique hi he ha ha'
  obtain rfl : i = j := by omega
  rw [hi] at hd
  cases hd
  exact hb

end Layers
