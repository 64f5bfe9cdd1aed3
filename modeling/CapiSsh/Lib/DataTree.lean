import Mathlib.Data.List.Basic

/-!
# Data trees

What a YAML or JSON loader of a scripting language builds: scalars, lists, and mappings
that keep the order of their entries. `same` is the equality of such a language, which
asks two mappings for the same entries in whatever order. Scalars other than strings are
a parameter with an equality of their own.
-/
namespace DataTree

inductive Scalar (σ : Type) where
  | null : Scalar σ
  | str : String → Scalar σ
  | other : σ → Scalar σ
  deriving DecidableEq, Repr

inductive Node (σ : Type) where
  | scalar : Scalar σ → Node σ
  | list : List (Node σ) → Node σ
  | map : List (Scalar σ × Node σ) → Node σ

abbrev Entries (σ : Type) := List (Scalar σ × Node σ)

def Node.str {σ : Type} (s : String) : Node σ := .scalar (.str s)

variable {σ : Type}

section equality

variable [BEq σ]

def Scalar.same : Scalar σ → Scalar σ → Bool
  | .null, .null => true
  | .str a, .str b => a == b
  | .other a, .other b => a == b
  | _, _ => false

def entry (k : Scalar σ) : Entries σ → Option (Node σ)
  | [] => none
  | (k', v) :: es => if k.same k' then some v else entry k es

mutual

def Node.same : Node σ → Node σ → Bool
  | .scalar a, .scalar b => a.same b
  | .list as, .list bs => sameItems as bs
  | .map es, .map fs => es.length == fs.length && within es fs
  | _, _ => false

def sameItems : List (Node σ) → List (Node σ) → Bool
  | [], [] => true
  | a :: as, b :: bs => a.same b && sameItems as bs
  | _, _ => false

/-- Every entry of the first mapping is one of the second. -/
def within : Entries σ → Entries σ → Bool
  | [], _ => true
  | (k, v) :: es, fs => (match entry k fs with
    | some w => v.same w
    | none => false) && within es fs

end

/-- An absent value equals an absent one only. -/
def sameOption : Option (Node σ) → Option (Node σ) → Bool
  | none, none => true
  | some a, some b => a.same b
  | _, _ => false

mutual

/-- No mapping of the tree has two entries of one key. -/
def Node.Keyed : Node σ → Prop
  | .scalar _ => True
  | .list as => keyedItems as
  | .map es => keyedEntries es

def keyedItems : List (Node σ) → Prop
  | [] => True
  | a :: as => a.Keyed ∧ keyedItems as

def keyedEntries : Entries σ → Prop
  | [] => True
  | (k, v) :: es => (∀ e ∈ es, k.same e.1 = false ∧ e.1.same k = false) ∧ v.Keyed ∧ keyedEntries es

end

theorem keyedItems_iff {as : List (Node σ)} : keyedItems as ↔ ∀ a ∈ as, a.Keyed := by
  induction as with
  | nil => simp [keyedItems]
  | cons a as ih => simp [keyedItems, ih]

theorem keyedEntries_value {es : Entries σ} (h : keyedEntries es) {e : Scalar σ × Node σ} (he : e ∈ es) :
    e.2.Keyed := by
  induction es with
  | nil => simp at he
  | cons f es ih =>
    simp only [keyedEntries] at h
    cases List.mem_cons.mp he with
    | inl hf => exact hf ▸ h.2.1
    | inr hes => exact ih h.2.2 hes

@[simp] theorem Scalar.same_refl [ReflBEq σ] (a : Scalar σ) : a.same a = true := by
  cases a <;> simp [Scalar.same]

theorem entry_append_of_ne {k : Scalar σ} {es : Entries σ} (fs : Entries σ) (h : ∀ e ∈ es, k.same e.1 = false) :
    entry k (es ++ fs) = entry k fs := by
  induction es with
  | nil => rfl
  | cons e es ih =>
    simp only [List.mem_cons, forall_eq_or_imp] at h
    simp [entry, h.1, ih h.2]

/-- The entries after some others, looked up among all of them. -/
theorem within_append [ReflBEq σ] {es fs : Entries σ} (hsame : ∀ e ∈ es, e.2.same e.2 = true) (hes : keyedEntries es)
    (hout : ∀ e ∈ es, ∀ f ∈ fs, e.1.same f.1 = false) : within es (fs ++ es) = true := by
  induction es generalizing fs with
  | nil => simp [within]
  | cons e es ih =>
    obtain ⟨k, v⟩ := e
    simp only [keyedEntries, List.mem_cons, forall_eq_or_imp] at hes hout hsame
    have hk : entry k (fs ++ (k, v) :: es) = some v := by
      rw [entry_append_of_ne _ hout.1]
      simp [entry]
    have hrest : within es ((fs ++ [(k, v)]) ++ es) = true := by
      refine ih hsame.2 hes.2.2 ?_
      intro f hf g hg
      rcases List.mem_append.mp hg with hg | hg
      · exact hout.2 f hf g hg
      · rw [List.mem_singleton.mp hg]
        exact (hes.1 f hf).2
    rw [List.append_assoc, List.singleton_append] at hrest
    simp [within, hk, hsame.1, hrest]

mutual

theorem Node.same_refl [ReflBEq σ] : (a : Node σ) → a.Keyed → a.same a = true
  | .scalar a, _ => by simp [Node.same]
  | .list as, h => by
    simp only [Node.Keyed] at h
    simpa [Node.same] using sameItems_refl as h
  | .map es, h => by
    simp only [Node.Keyed] at h
    have : within es ([] ++ es) = true :=
      within_append (entries_same_refl es h) h fun _ _ _ hf => absurd hf List.not_mem_nil
    simpa [Node.same] using this

theorem sameItems_refl [ReflBEq σ] : (as : List (Node σ)) → keyedItems as → sameItems as as = true
  | [], _ => by simp [sameItems]
  | a :: as, h => by
    simp only [keyedItems] at h
    simp [sameItems, Node.same_refl a h.1, sameItems_refl as h.2]

theorem entries_same_refl [ReflBEq σ] : (es : Entries σ) → keyedEntries es → ∀ e ∈ es, e.2.same e.2 = true
  | [], _ => by simp
  | (k, v) :: es, h => by
    simp only [keyedEntries] at h
    intro e he
    cases List.mem_cons.mp he with
    | inl hf => exact hf ▸ Node.same_refl v h.2.1
    | inr hes => exact entries_same_refl es h.2.2 e hes

end

@[simp] theorem same_str (s t : String) : (Node.str s : Node σ).same (.str t) = (s == t) := by
  simp [Node.str, Node.same, Scalar.same]

/-- A string equals itself and nothing else. -/
theorem same_str_right {a : Node σ} {s : String} (h : a.same (.str s) = true) : a = .str s := by
  cases a with
  | scalar c =>
    cases c with
    | str t => simpa [Node.str, Node.same, Scalar.same] using h
    | null => simp [Node.str, Node.same, Scalar.same] at h
    | other c => simp [Node.str, Node.same, Scalar.same] at h
  | list as => simp [Node.str, Node.same] at h
  | map es => simp [Node.str, Node.same] at h

/-- A string equals nothing but itself. -/
theorem same_str_left {a : Node σ} {s : String} (h : (Node.str s).same a = true) : a = .str s := by
  cases a with
  | scalar c =>
    cases c with
    | str t =>
      have hst : s = t := by simpa [Node.str, Node.same, Scalar.same] using h
      rw [hst, Node.str]
    | null => simp [Node.str, Node.same, Scalar.same] at h
    | other c => simp [Node.str, Node.same, Scalar.same] at h
  | list as => simp [Node.str, Node.same] at h
  | map es => simp [Node.str, Node.same] at h

end equality

def isKey (k : String) : Scalar σ → Bool
  | .str s => s == k
  | _ => false

/-- `mapping.get(k)` -/
def get (k : String) : Entries σ → Option (Node σ)
  | [] => none
  | e :: es => if isKey k e.1 then some e.2 else get k es

/-- `mapping[k] = v`: in the place of the entry that is there, else at the end. -/
def assign (k : String) (v : Node σ) : Entries σ → Entries σ
  | [] => [(.str k, v)]
  | e :: es => if isKey k e.1 then (e.1, v) :: es else e :: assign k v es

/-- The entries of all other keys. -/
def others (k : String) (es : Entries σ) : Entries σ := es.filter (fun e => !isKey k e.1)

@[simp] theorem isKey_str (k : String) : isKey k (Scalar.str k : Scalar σ) = true := by simp [isKey]

theorem isKey_iff {k : String} {s : Scalar σ} : isKey k s = true ↔ s = .str k := by
  cases s <;> simp [isKey]

@[simp] theorem get_assign (k : String) (v : Node σ) (es : Entries σ) : get k (assign k v es) = some v := by
  induction es with
  | nil => simp [assign, get]
  | cons e es ih => by_cases h : isKey k e.1 = true <;> simp [assign, get, h, ih]

@[simp] theorem others_assign (k : String) (v : Node σ) (es : Entries σ) : others k (assign k v es) = others k es := by
  induction es with
  | nil => simp [assign, others]
  | cons e es ih =>
    unfold others at ih ⊢
    by_cases h : isKey k e.1 = true <;> simp [assign, h, ih]

theorem get_of_others {k l : String} (hne : l ≠ k) (es : Entries σ) : get l (others k es) = get l es := by
  induction es with
  | nil => rfl
  | cons e es ih =>
    unfold others at ih ⊢
    by_cases h : isKey k e.1 = true
    · have hl : isKey l e.1 = false := by
        rw [isKey_iff] at h
        simp [h, isKey, Ne.symm hne]
      simp [h, get, hl, ih]
    · simp [h, get, ih]

/-- Assignment concerns one key. -/
theorem get_assign_of_ne {k l : String} (hne : l ≠ k) (v : Node σ) (es : Entries σ) :
    get l (assign k v es) = get l es := by
  rw [← get_of_others hne (assign k v es), others_assign, get_of_others hne]

theorem others_comm (k l : String) (es : Entries σ) : others k (others l es) = others l (others k es) := by
  unfold others
  rw [List.filter_filter, List.filter_filter]
  simp only [Bool.and_comm]

/-- Assigning what stands there changes nothing. -/
theorem assign_get {k : String} {v : Node σ} {es : Entries σ} (h : get k es = some v) : assign k v es = es := by
  induction es with
  | nil => simp [get] at h
  | cons e es ih =>
    by_cases hk : isKey k e.1 = true
    · simp only [get, hk, if_true, Option.some.injEq] at h
      simp [assign, hk, ← h]
    · simp only [get, hk, Bool.false_eq_true, if_false] at h
      simp [assign, hk, ih h]

theorem assign_assign (k : String) (v w : Node σ) (es : Entries σ) : assign k w (assign k v es) = assign k w es := by
  induction es with
  | nil => simp [assign]
  | cons e es ih => by_cases h : isKey k e.1 = true <;> simp [assign, h, ih]

/-- An assignment adds an entry exactly when the key is new. -/
theorem length_assign (k : String) (v : Node σ) (es : Entries σ) :
    (assign k v es).length = if (get k es).isSome then es.length else es.length + 1 := by
  induction es with
  | nil => simp [assign, get]
  | cons e es ih =>
    by_cases h : isKey k e.1 = true
    · simp [assign, get, h]
    · simp only [assign, get, h, Bool.false_eq_true, if_false, List.length_cons, ih]
      split <;> rfl

theorem get_mem {k : String} {v : Node σ} {es : Entries σ} (h : get k es = some v) : (.str k, v) ∈ es := by
  induction es with
  | nil => simp [get] at h
  | cons e es ih =>
    by_cases hk : isKey k e.1 = true
    · simp only [get, hk, if_true, Option.some.injEq] at h
      rw [isKey_iff] at hk
      simp [← hk, ← h]
    · simp only [get, hk, Bool.false_eq_true, if_false] at h
      exact List.mem_cons_of_mem _ (ih h)

section keyed

variable [BEq σ]

theorem entry_str (k : String) (es : Entries σ) : entry (.str k) es = get k es := by
  induction es with
  | nil => rfl
  | cons e es ih =>
    have : (Scalar.str k : Scalar σ).same e.1 = isKey k e.1 := by
      cases h : e.1 <;> simp [Scalar.same, isKey, Bool.beq_eq_decide_eq, eq_comm]
    simp [entry, get, this, ih]

/-- What is found in one mapping is found in another that contains it. -/
theorem within_get {es fs : Entries σ} (h : within es fs = true) {k : String} {v : Node σ} (hg : get k es = some v) :
    ∃ w, get k fs = some w ∧ v.same w = true := by
  induction es with
  | nil => simp [get] at hg
  | cons e es ih =>
    obtain ⟨l, u⟩ := e
    simp only [within, Bool.and_eq_true] at h
    by_cases hk : isKey k l = true
    · simp only [get, hk, if_true, Option.some.injEq] at hg
      rw [isKey_iff.mp hk, entry_str, hg] at h
      cases hf : get k fs with
      | none => simp [hf] at h
      | some w => exact ⟨w, rfl, by simpa [hf] using h.1⟩
    · simp only [get, hk, Bool.false_eq_true, if_false] at hg
      exact ih h.2 hg

theorem keyedEntries_get {es : Entries σ} (h : keyedEntries es) {k : String} {v : Node σ} (hg : get k es = some v) :
    v.Keyed := keyedEntries_value h (get_mem hg)

/-- Assignment repeats no key. -/
theorem keyedEntries_assign {es : Entries σ} (h : keyedEntries es) {k : String} {v : Node σ} (hv : v.Keyed) :
    keyedEntries (assign k v es) := by
  have hkeys : ∀ {es : Entries σ} {f : Scalar σ × Node σ}, f ∈ assign k v es →
      f.1 = .str k ∨ f ∈ es := by
    intro es f hf
    induction es with
    | nil => exact .inl (by simp [assign] at hf; simp [hf])
    | cons e es ih =>
      by_cases hk : isKey k e.1 = true
      · simp only [assign, hk, if_true, List.mem_cons] at hf
        rcases hf with rfl | hf
        · exact .inl (isKey_iff.mp hk)
        · exact .inr (List.mem_cons_of_mem _ hf)
      · simp only [assign, hk, Bool.false_eq_true, if_false, List.mem_cons] at hf
        rcases hf with rfl | hf
        · exact .inr List.mem_cons_self
        · exact (ih hf).imp id (List.mem_cons_of_mem _)
  induction es with
  | nil => simp [assign, keyedEntries, hv]
  | cons e es ih =>
    obtain ⟨l, w⟩ := e
    simp only [keyedEntries] at h
    by_cases hk : isKey k l = true
    · simp [assign, hk, keyedEntries, hv, h.2.2]
      simpa using h.1
    · simp only [assign, hk, Bool.false_eq_true, if_false, keyedEntries]
      refine ⟨fun f hf => ?_, h.2.1, ih h.2.2⟩
      rcases hkeys hf with hf | hf
      · rw [hf]
        cases l with
        | str t =>
          have hne : t ≠ k := by simpa [isKey] using hk
          simp [Scalar.same, hne, Ne.symm hne]
        | null => simp [Scalar.same]
        | other c => simp [Scalar.same]
      · exact h.1 f hf

/-- Of a key that a mapping has, it has one entry. -/
theorem entries_of_key {es : Entries σ} (h : keyedEntries es) {k : String} {v : Node σ} (hg : get k es = some v) :
    es.filter (fun e => isKey k e.1) = [(.str k, v)] := by
  induction es with
  | nil => simp [get] at hg
  | cons e es ih =>
    obtain ⟨l, w⟩ := e
    simp only [keyedEntries] at h
    by_cases hk : isKey k l = true
    · simp only [get, hk, if_true, Option.some.injEq] at hg
      have hl := isKey_iff.mp hk
      have hnone : es.filter (fun e => isKey k e.1) = [] := by
        rw [List.filter_eq_nil_iff]
        intro f hf hfk
        have := (h.1 f hf).1
        simp [hl, isKey_iff.mp hfk, Scalar.same] at this
      simp [hl, hg, hnone]
    · simp only [get, hk, Bool.false_eq_true, if_false] at hg
      simpa [hk] using ih h.2.2 hg

end keyed

end DataTree
