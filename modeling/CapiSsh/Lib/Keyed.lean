import Mathlib.Data.List.Basic
import Mathlib.Data.List.Nodup

/-!
# Lists that are keyed by a projection

A list that stands for a finite map: `put` replaces the entry of a key in its place or
adds it at the end. `standing` is what the last entry of a key says, so that it can also
be asked of lists that are not keyed yet.
-/
namespace Keyed

variable {α κ β : Type} [DecidableEq κ] (key : α → κ) (val : α → β)

def put (a : α) : List α → List α
  | [] => [a]
  | b :: l => if key b = key a then a :: l else b :: put a l

/-- No key has two entries. -/
def Distinct (l : List α) : Prop := (l.map key).Nodup

def standing (k : κ) : List α → Option β
  | [] => none
  | a :: l => (standing k l).or (if key a = k then some (val a) else none)

variable {key val} {a b : α} {l l' : List α} {k : κ}

theorem mem_put (h : b ∈ put key a l) : b = a ∨ b ∈ l := by
  induction l with
  | nil => exact .inl (List.mem_singleton.mp h)
  | cons c l ih =>
    simp only [put] at h
    split at h
    · rcases List.mem_cons.mp h with rfl | h
      · exact .inl rfl
      · exact .inr (List.mem_cons_of_mem _ h)
    · rcases List.mem_cons.mp h with rfl | h
      · exact .inr List.mem_cons_self
      · exact (ih h).imp id (List.mem_cons_of_mem _)

omit [DecidableEq κ] in
theorem distinct_nil : Distinct key ([] : List α) := List.nodup_nil

theorem distinct_put (h : Distinct key l) : Distinct key (put key a l) := by
  induction l with
  | nil => exact List.nodup_singleton _
  | cons c l ih =>
    simp only [Distinct, List.map_cons, List.nodup_cons] at h
    simp only [put]
    split
    · rename_i hc
      simp only [Distinct, List.map_cons, List.nodup_cons, ← hc]
      exact h
    · rename_i hc
      simp only [Distinct, List.map_cons, List.nodup_cons]
      refine ⟨fun hmem => ?_, ih h.2⟩
      obtain ⟨b, hb, hk⟩ := List.mem_map.mp hmem
      rcases mem_put hb with rfl | hb
      · exact hc hk.symm
      · exact h.1 (hk ▸ List.mem_map_of_mem hb)

theorem standing_append : standing key val k (l ++ l') = (standing key val k l').or (standing key val k l) := by
  induction l with
  | nil => simp [standing]
  | cons c l ih => simp only [List.cons_append, standing, ih, Option.or_assoc]

theorem standing_absent (h : k ∉ l.map key) : standing key val k l = none := by
  induction l with
  | nil => rfl
  | cons c l ih =>
    simp only [List.map_cons, List.mem_cons, not_or] at h
    simp [standing, ih h.2, Ne.symm h.1]

theorem standing_put (h : Distinct key l) :
    standing key val k (put key a l) = if key a = k then some (val a) else standing key val k l := by
  induction l with
  | nil => simp [put, standing]
  | cons c l ih =>
    simp only [Distinct, List.map_cons, List.nodup_cons] at h
    simp only [put]
    split
    · rename_i hc
      by_cases hk : key a = k
      · subst hk
        rw [if_pos rfl, standing, if_pos rfl, standing_absent (hc ▸ h.1), Option.none_or]
      · simp [standing, hc, hk]
    · rename_i hc
      rw [standing, ih h.2, standing]
      by_cases hk : key a = k
      · subst hk
        simp [hc]
      · simp [hk]

/-- In a keyed list every entry stands. -/
theorem standing_mem {v : β} (h : Distinct key l) :
    standing key val k l = some v ↔ ∃ a ∈ l, key a = k ∧ val a = v := by
  induction l with
  | nil => simp [standing]
  | cons c l ih =>
    simp only [Distinct, List.map_cons, List.nodup_cons] at h
    by_cases hk : key c = k
    · subst hk
      have hout : ∀ a ∈ l, key a ≠ key c := fun a ha hac => h.1 (hac ▸ List.mem_map_of_mem ha)
      rw [standing, standing_absent h.1, if_pos rfl, Option.none_or, Option.some.injEq]
      constructor
      · exact fun hv => ⟨c, List.mem_cons_self, rfl, hv⟩
      · rintro ⟨a, ha, hka, hv⟩
        rcases List.mem_cons.mp ha with rfl | ha
        · exact hv
        · exact absurd hka (hout a ha)
    · rw [standing, if_neg hk, Option.or_none, ih h.2]
      constructor
      · rintro ⟨a, ha, hv⟩
        exact ⟨a, List.mem_cons_of_mem _ ha, hv⟩
      · rintro ⟨a, ha, hka, hv⟩
        rcases List.mem_cons.mp ha with rfl | ha
        · exact absurd hka hk
        · exact ⟨a, ha, hka, hv⟩

theorem distinct_updates {step : List α → α → List α} (hstep : ∀ l u, ∃ a, step l u = put key a l) (us : List α)
    (h : Distinct key l) : Distinct key (us.foldl step l) := by
  induction us generalizing l with
  | nil => exact h
  | cons u us ih =>
    obtain ⟨a, ha⟩ := hstep l u
    exact ih (by rw [ha]; exact distinct_put h)

section updates

variable {step : List α → α → List α} (hstep : ∀ l u, ∃ a, step l u = put key a l ∧ key a = key u ∧ val a = val u)

include hstep

/-- A sequence of updates: what they say of a key stands, or else what was there. -/
theorem standing_updates (us : List α) (h : Distinct key l) :
    standing key val k (us.foldl step l) = (standing key val k us).or (standing key val k l) := by
  induction us generalizing l with
  | nil => simp [standing]
  | cons u us ih =>
    obtain ⟨a, ha, hk, hv⟩ := hstep l u
    rw [List.foldl_cons, ih (by rw [ha]; exact distinct_put h), ha, standing_put h, standing, hk, hv]
    split <;> simp

/-- What holds of the values of a list and of its updates holds of the result. -/
theorem values_updates {P : β → Prop} (us : List α) (hu : ∀ u ∈ us, P (val u)) (h : ∀ a ∈ l, P (val a)) :
    ∀ a ∈ us.foldl step l, P (val a) := by
  induction us generalizing l with
  | nil => exact h
  | cons u us ih =>
    obtain ⟨a, ha, -, hv⟩ := hstep l u
    refine ih (fun x hx => hu x (List.mem_cons_of_mem _ hx)) fun x hx => ?_
    rw [ha] at hx
    rcases mem_put hx with rfl | hx
    · rw [hv]; exact hu u List.mem_cons_self
    · exact h x hx

end updates

theorem standing_filter {p : α → Bool} (h : ∀ a, key a = k → p a = true) :
    standing key val k (l.filter p) = standing key val k l := by
  induction l with
  | nil => rfl
  | cons c l ih =>
    by_cases hp : p c = true
    · rw [List.filter_cons_of_pos hp, standing, ih, standing]
    · rw [List.filter_cons_of_neg hp, ih, standing, if_neg fun hk => hp (h c hk), Option.or_none]

theorem put_new (h : key a ∉ l.map key) : put key a l = l ++ [a] := by
  induction l with
  | nil => rfl
  | cons c l ih =>
    simp only [List.map_cons, List.mem_cons, not_or] at h
    rw [put, if_neg (Ne.symm h.1), ih h.2, List.cons_append]

theorem put_mem (h : Distinct key l) (ha : a ∈ l) : put key a l = l := by
  induction l with
  | nil => cases ha
  | cons c l ih =>
    simp only [Distinct, List.map_cons, List.nodup_cons] at h
    cases List.mem_cons.mp ha with
    | inl hc => rw [put, if_pos (by rw [hc]), hc]
    | inr hl =>
      have hk : key c ≠ key a := fun hk => h.1 (hk ▸ List.mem_map_of_mem hl)
      rw [put, if_neg hk, ih h.2 hl]

/-- New entries are added in their order. -/
theorem foldl_put_new (us : List α) (h : Distinct key (l ++ us)) :
    us.foldl (fun l a => put key a l) l = l ++ us := by
  induction us generalizing l with
  | nil => simp
  | cons u us ih =>
    have hu : key u ∉ l.map key := by
      simp only [Distinct, List.map_append, List.map_cons] at h
      exact fun hm => (List.nodup_append.mp h).2.2 _ hm _ List.mem_cons_self rfl
    rw [List.foldl_cons, put_new hu, ih (by simpa using h)]
    simp

theorem foldl_put_mem (us : List α) (h : Distinct key l) (hu : ∀ u ∈ us, u ∈ l) :
    us.foldl (fun l a => put key a l) l = l := by
  induction us with
  | nil => rfl
  | cons u us ih =>
    rw [List.foldl_cons, put_mem h (hu u List.mem_cons_self)]
    exact ih fun v hv => hu v (List.mem_cons_of_mem u hv)

section filter

variable {p : α → Bool} (hp : ∀ a b, key a = key b → p a = p b)

include hp

/-- A part of the keys sees only the entries of its own. -/
theorem filter_put : (put key a l).filter p = if p a = true then put key a (l.filter p) else l.filter p := by
  induction l with
  | nil => by_cases ha : p a = true <;> simp [put, ha]
  | cons c l ih =>
    rw [put]
    by_cases hk : key c = key a
    · rw [if_pos hk]
      have hpc := hp c a hk
      by_cases ha : p a = true
      · simp [hpc, ha, put, hk]
      · simp [hpc, ha]
    · rw [if_neg hk, List.filter_cons, List.filter_cons, ih]
      by_cases hc : p c = true
      · by_cases ha : p a = true
        · simp [hc, ha, put, hk]
        · simp [hc, ha]
      · simp [hc]

theorem filter_foldl_put (us : List α) : (us.foldl (fun l a => put key a l) l).filter p =
    (us.filter p).foldl (fun l a => put key a l) (l.filter p) := by
  induction us generalizing l with
  | nil => rfl
  | cons u us ih =>
    rw [List.foldl_cons, ih, filter_put hp]
    by_cases hu : p u = true
    · simp [hu]
    · simp [hu]

end filter

end Keyed
