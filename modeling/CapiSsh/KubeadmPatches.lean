import CapiSsh.Kubeadm
import CapiSsh.Lib.TextLines

/-!
# What a kubeadm patch does to documents

Each argument form has one update, which is idempotent and leaves other arguments alone.
From it come what a patch makes of one document, of a list of them, and of a text.
-/
namespace CapiSsh

open DataTree TextLines

variable {σ : Type} {desired : List (String × String)}

def named (k : String) (a : Node σ) : Bool := (nameValue a).map Prod.fst == some k

@[simp] theorem textOf_str (s : String) : textOf (Node.str s : Node σ) = some s := rfl

theorem textOf_iff {a : Node σ} {s : String} : textOf a = some s ↔ a = .str s := by
  constructor
  · intro h
    cases a with
    | scalar c => cases c <;> simp_all [textOf, Node.str]
    | list as => simp [textOf] at h
    | map es => simp [textOf] at h
  · rintro rfl
    rfl

theorem textAt_iff {k s : String} {es : Entries σ} : textAt k es = some s ↔ DataTree.get k es = some (.str s) := by
  simp only [textAt, Option.bind_eq_some_iff, textOf_iff]
  constructor
  · rintro ⟨a, h, rfl⟩
    exact h
  · exact fun h => ⟨_, h, rfl⟩

@[simp] theorem nameValue_argument (d : String × String) : nameValue (argument d : Node σ) = some d := by
  simp [nameValue, argument, textAt, DataTree.get, isKey]

theorem ownedArg_iff {name : Option String} : ownedArg desired name = true ↔ ∃ d ∈ desired, some d.1 = name := by
  simp [ownedArg]

theorem ownedArg_argument {d : String × String} (hd : d ∈ desired) :
    ownedArg desired ((nameValue (argument d : Node σ)).map Prod.fst) = true := by
  rw [nameValue_argument, ownedArg_iff]
  exact ⟨d, hd, rfl⟩

/-- The arguments of other names. -/
def unowned (desired : List (String × String)) (args : List (Node σ)) : List (Node σ) :=
  args.filter (fun a => !ownedArg desired ((nameValue a).map Prod.fst))

/-- Arguments of other names keep their order and multiplicity. -/
theorem unowned_replaceOwned (desired : List (String × String)) (args : List (Node σ)) :
    unowned desired (replaceOwned desired args) = unowned desired args := by
  have hnone : unowned desired (desired.map argument : List (Node σ)) = [] := by
    rw [unowned, List.filter_eq_nil_iff]
    intro a ha
    obtain ⟨d, hd, rfl⟩ := List.mem_map.mp ha
    simp only [ownedArg_argument hd, Bool.not_true, Bool.false_eq_true, not_false_eq_true]
  unfold unowned at hnone ⊢
  simp only [replaceOwned, List.filter_append, List.filter_filter, Bool.and_self, hnone, List.append_nil]

/-- Replacing what is owned a second time changes nothing. -/
theorem replaceOwned_twice (args : List (Node σ)) :
    replaceOwned desired (replaceOwned desired args) = replaceOwned desired args := by
  have := unowned_replaceOwned desired args
  unfold unowned at this
  rw [replaceOwned, this]
  rfl

/-- Of a desired name there is one argument, the desired one. -/
theorem replaceOwned_named (hkeys : (desired.map Prod.fst).Nodup) (args : List (Node σ)) {d : String × String}
    (hd : d ∈ desired) : (replaceOwned desired args).filter (named d.1) = [argument d] := by
  have hkept : (args.filter (fun a => !ownedArg desired ((nameValue a).map Prod.fst))).filter (named d.1) = [] := by
    rw [List.filter_eq_nil_iff]
    intro a ha hn
    have hout := (List.mem_filter.mp ha).2
    have hin : ownedArg desired ((nameValue a).map Prod.fst) = true := by
      rw [ownedArg_iff]
      exact ⟨d, hd, (eq_of_beq hn).symm⟩
    simp [hin] at hout
  have hone : (desired.map argument : List (Node σ)).filter (named d.1) = [argument d] := by
    clear hkept
    induction desired with
    | nil => simp at hd
    | cons e es ih =>
      simp only [List.map_cons, List.nodup_cons] at hkeys
      by_cases he : e.1 = d.1
      · have hed : e = d := by
          rcases List.mem_cons.mp hd with hd | hd
          · exact hd.symm
          · exact absurd (he ▸ List.mem_map_of_mem hd) hkeys.1
        have hrest : (es.map argument : List (Node σ)).filter (named d.1) = [] := by
          rw [List.filter_eq_nil_iff]
          intro a ha hn
          obtain ⟨f, hf, rfl⟩ := List.mem_map.mp ha
          have hfd : f.1 = d.1 := by simpa [named] using hn
          exact hkeys.1 (he ▸ hfd ▸ List.mem_map_of_mem hf)
        simp only [List.map_cons, hed]
        rw [List.filter_cons_of_pos (by simp [named]), hrest]
      · have hd' : d ∈ es := by
          rcases List.mem_cons.mp hd with hd | hd
          · exact absurd (by rw [hd]) he
          · exact hd
        rw [List.map_cons, List.filter_cons_of_neg (by simp [named, he])]
        exact ih hkeys.2 hd'
  rw [replaceOwned, List.filter_append, hkept, hone, List.nil_append]

theorem nameValue_same [BEq σ] {a b : Node σ} {p : String × String} (h : a.same b = true)
    (ha : nameValue a = some p) : nameValue b = some p := by
  cases a with
  | scalar c => simp [nameValue] at ha
  | list as => simp [nameValue] at ha
  | map es =>
    cases b with
    | scalar c => simp [Node.same] at h
    | list as => simp [Node.same] at h
    | map fs =>
      have hw : within es fs = true := by simp [Node.same] at h; exact h.2
      have htext : ∀ {k s : String}, textAt k es = some s → textAt k fs = some s := by
        intro k s hk
        obtain ⟨w, hget, hsame⟩ := within_get hw (textAt_iff.mp hk)
        rw [textAt_iff, hget, same_str_left hsame]
      simp only [nameValue, Option.bind_eq_bind, Option.bind_eq_some_iff, Option.pure_def] at ha ⊢
      obtain ⟨name, hname, value, hvalue, hp⟩ := ha
      exact ⟨name, htext hname, value, htext hvalue, hp⟩

/-- Equal lists of arguments have the same names and values, place by place. -/
theorem nameValues_same [BEq σ] {as bs : List (Node σ)} (h : sameItems as bs = true)
    (has : ∀ a ∈ as, (nameValue a).isSome = true) : as.map nameValue = bs.map nameValue := by
  induction as generalizing bs with
  | nil => cases bs <;> simp_all [sameItems]
  | cons a as ih =>
    cases bs with
    | nil => simp [sameItems] at h
    | cons b bs =>
      simp only [sameItems, Bool.and_eq_true] at h
      simp only [List.mem_cons, forall_eq_or_imp] at has
      obtain ⟨p, hp⟩ := Option.isSome_iff_exists.mp has.1
      simp [hp, nameValue_same h.1 hp, ih h.2 has.2]

theorem length_updateAll_le (desired : List (String × String)) (args : Entries σ) : args.length ≤ (updateAll desired args).length := by
  induction desired generalizing args with
  | nil => exact Nat.le_refl _
  | cons d ds ih =>
    have := ih (assign d.1 (.str d.2) args)
    have hl := length_assign d.1 (.str d.2) args
    simp only [updateAll, List.foldl_cons] at this ⊢
    split at hl <;> omega

theorem get_updateAll_other {k : String} (hk : k ∉ desired.map Prod.fst) (args : Entries σ) :
    DataTree.get k (updateAll desired args) = DataTree.get k args := by
  induction desired generalizing args with
  | nil => rfl
  | cons d ds ih =>
    simp only [List.map_cons, List.mem_cons, not_or] at hk
    have := ih hk.2 (assign d.1 (.str d.2) args)
    simp only [updateAll, List.foldl_cons] at this ⊢
    rw [this, get_assign_of_ne hk.1]

/-- An argument that is asked for is set. -/
theorem get_updateAll (hkeys : (desired.map Prod.fst).Nodup) (args : Entries σ) {d : String × String}
    (hd : d ∈ desired) : DataTree.get d.1 (updateAll desired args) = some (.str d.2) := by
  induction desired generalizing args with
  | nil => simp at hd
  | cons e es ih =>
    simp only [List.map_cons, List.nodup_cons] at hkeys
    rcases List.mem_cons.mp hd with rfl | hd
    · have := get_updateAll_other hkeys.1 (assign d.1 (.str d.2) args)
      simp only [updateAll, List.foldl_cons] at this ⊢
      rw [this, get_assign]
    · exact ih hkeys.2 _ hd

/-- An update that adds no entry found every key there. -/
theorem updateAll_present {args : Entries σ} (hlen : (updateAll desired args).length = args.length) :
    ∀ d ∈ desired, (DataTree.get d.1 args).isSome = true := by
  induction desired generalizing args with
  | nil => simp
  | cons e es ih =>
    have hle := length_updateAll_le es (assign e.1 (.str e.2) args)
    have hl := length_assign e.1 (.str e.2) args
    have hrest := @ih (assign e.1 (.str e.2) args)
    simp only [updateAll, List.foldl_cons] at hlen hle hrest
    split at hl
    · rename_i he
      intro d hd
      rcases List.mem_cons.mp hd with rfl | hd
      · exact he
      · have hd' := hrest (by omega) d hd
        by_cases hde : d.1 = e.1
        · rw [hde]; exact he
        · rwa [get_assign_of_ne hde] at hd'
    · omega

/-- Arguments that are set already are left alone. -/
theorem updateAll_fixed {args : Entries σ} (h : ∀ d ∈ desired, DataTree.get d.1 args = some (.str d.2)) :
    updateAll desired args = args := by
  induction desired with
  | nil => rfl
  | cons e es ih =>
    simp only [List.mem_cons, forall_eq_or_imp] at h
    rw [updateAll, List.foldl_cons, assign_get h.1]
    exact ih h.2

def unlisted (desired : List (String × String)) (args : Entries σ) : Entries σ :=
  args.filter (fun e => !desired.any (fun d => isKey d.1 e.1))

theorem unlisted_assign {d : String × String} (hd : d ∈ desired) (v : Node σ) (args : Entries σ) :
    unlisted desired (assign d.1 v args) = unlisted desired args := by
  induction args with
  | nil =>
    have : desired.any (fun e => isKey e.1 (Scalar.str d.1 : Scalar σ)) = true := by
      simp only [List.any_eq_true]
      exact ⟨d, hd, isKey_str _⟩
    simp [unlisted, assign, this]
  | cons e es ih =>
    unfold unlisted at ih ⊢
    by_cases hk : isKey d.1 e.1 = true
    · have : desired.any (fun f => isKey f.1 e.1) = true := List.any_eq_true.mpr ⟨d, hd, hk⟩
      simp [assign, hk, this]
    · simp only [assign, hk, Bool.false_eq_true, if_false, List.filter_cons, ih]

/-- Entries of other keys stay, in their order. -/
theorem unlisted_updateAll (args : Entries σ) : unlisted desired (updateAll desired args) = unlisted desired args := by
  have general : ∀ (ds : List (String × String)) (args : Entries σ), (∀ d ∈ ds, d ∈ desired) →
      unlisted desired (updateAll ds args) = unlisted desired args := by
    intro ds
    induction ds with
    | nil => exact fun _ _ => rfl
    | cons d ds ih =>
      intro args hds
      simp only [List.mem_cons, forall_eq_or_imp] at hds
      have := ih (assign d.1 (.str d.2) args) hds.2
      simp only [updateAll, List.foldl_cons] at this ⊢
      rw [this, unlisted_assign hds.1]
  exact general desired args (fun _ hd => hd)

theorem keyedEntries_updateAll [BEq σ] {args : Entries σ} (h : keyedEntries args) :
    keyedEntries (updateAll desired args) := by
  induction desired generalizing args with
  | nil => exact h
  | cons d ds ih => exact ih (keyedEntries_assign h (by simp [Node.str, Node.Keyed]))

/-- Exactly one argument of every desired name, with its value; the others as they were. -/
def ArgsSet (version : Option String) (desired : List (String × String)) (before after : Option (Node σ)) : Prop :=
  (∃ args args', version = some kubeadmV4 ∧ before.getD (.list []) = .list args ∧ after = some (.list args') ∧
    unowned desired args' = unowned desired args ∧
    ∀ d ∈ desired, ∃ a, args'.filter (named d.1) = [a] ∧ nameValue a = some d) ∨
  ∃ args args', version = some kubeadmV3 ∧ before.getD (.map []) = .map args ∧ after = some (.map args') ∧
    unlisted desired args' = unlisted desired args ∧
    ∀ d ∈ desired, args'.filter (fun e => isKey d.1 e.1) = [(.str d.1, .str d.2)]

/-- The shapes of arguments that the version of a document allows. -/
def argsShaped (doc parent : Entries σ) (field : String) : Bool :=
  if textAt "apiVersion" doc = some kubeadmV4 then
    match (DataTree.get field parent).getD (.list []) with
    | .list args => args.all (fun a => (nameValue a).isSome)
    | _ => false
  else if textAt "apiVersion" doc = some kubeadmV3 then
    match (DataTree.get field parent).getD (.map []) with
    | .map _ => true
    | _ => false
  else false

variable [BEq σ] {doc parent : Entries σ} {field : String}

/-- Arguments of another shape are refused. -/
theorem setKubeadmArgs_refused (desired : List (String × String)) (h : argsShaped doc parent field = false) :
    ∃ message, setKubeadmArgs doc parent field desired = .error (.permanent message) := by
  by_cases hv : textAt "apiVersion" doc = some kubeadmV4
  · simp only [argsShaped, setKubeadmArgs, if_pos hv] at h ⊢
    cases hargs : (DataTree.get field parent).getD (.list []) with
    | list args =>
      simp only [hargs] at h
      exact ⟨_, by simp only [h, Bool.false_eq_true, if_false]; rfl⟩
    | map es => exact ⟨_, rfl⟩
    | scalar c => exact ⟨_, rfl⟩
  · simp only [argsShaped, setKubeadmArgs, if_neg hv] at h ⊢
    by_cases hv' : textAt "apiVersion" doc = some kubeadmV3
    · simp only [if_pos hv'] at h ⊢
      cases hargs : (DataTree.get field parent).getD (.map []) with
      | list args => exact ⟨_, rfl⟩
      | map es => simp [hargs] at h
      | scalar c => exact ⟨_, rfl⟩
    · simp only [if_neg hv']
      exact ⟨_, rfl⟩

/-- What setting arguments comes to where their shape is allowed. -/
structure SetsArgs (doc parent : Entries σ) (field : String) (desired : List (String × String)) (after : Node σ) :
    Prop where
  result : setKubeadmArgs doc parent field desired =
    .ok (assign field after parent, !sameOption (DataTree.get field parent) (some after))
  set : ArgsSet (textAt "apiVersion" doc) desired (DataTree.get field parent) (some after)
  standing : sameOption (DataTree.get field parent) (some after) = true →
    ArgsSet (textAt "apiVersion" doc) desired (DataTree.get field parent) (DataTree.get field parent)
  keyed : after.Keyed
  again : ∀ doc', textAt "apiVersion" doc' = textAt "apiVersion" doc →
    setKubeadmArgs doc' (assign field after parent) field desired = .ok (assign field after parent, false)

theorem kubeadmV3_ne : kubeadmV3 ≠ kubeadmV4 := by decide

section reflexive

variable [ReflBEq σ]

theorem setKubeadmArgs_list (hkeys : (desired.map Prod.fst).Nodup) (hkeyed : keyedEntries parent)
    (hv : textAt "apiVersion" doc = some kubeadmV4) {args : List (Node σ)}
    (hargs : (DataTree.get field parent).getD (.list []) = .list args)
    (hall : args.all (fun a => (nameValue a).isSome) = true) :
    SetsArgs doc parent field desired (.list (replaceOwned desired args)) := by
  have hitems : keyedItems args := by
    cases hg : DataTree.get field parent with
    | none =>
      have : args = [] := by simpa [hg] using hargs.symm
      simp [this, keyedItems]
    | some v =>
      have hv : v = .list args := by simpa [hg] using hargs
      have := keyedEntries_get hkeyed hg
      simpa [hv, Node.Keyed] using this
  have hafter : (Node.list (replaceOwned desired args)).Keyed := by
    rw [Node.Keyed, keyedItems_iff] at *
    intro a ha
    rcases List.mem_append.mp ha with ha | ha
    · exact hitems a (List.mem_filter.mp ha).1
    · obtain ⟨d, -, rfl⟩ := List.mem_map.mp ha
      simp [argument, Node.Keyed, keyedEntries, Node.str, Scalar.same]
  have hall' : (replaceOwned desired args).all (fun a => (nameValue a).isSome) = true := by
    rw [List.all_eq_true] at hall ⊢
    intro a ha
    rcases List.mem_append.mp ha with ha | ha
    · exact hall a (List.mem_filter.mp ha).1
    · obtain ⟨d, -, rfl⟩ := List.mem_map.mp ha
      simp
  constructor
  case result => simp only [setKubeadmArgs, hv, if_true, hargs, hall]
  case set =>
    refine .inl ⟨args, _, hv, hargs, rfl, unowned_replaceOwned desired args, fun d hd => ?_⟩
    exact ⟨_, replaceOwned_named hkeys args hd, nameValue_argument d⟩
  case standing =>
    intro hsame
    cases hg : DataTree.get field parent with
    | none => simp [hg, sameOption] at hsame
    | some v =>
      have hvl : v = .list args := by simpa [hg] using hargs
      subst hvl
      simp only [hg, sameOption, Node.same] at hsame
      refine .inl ⟨args, args, hv, rfl, rfl, rfl, fun d hd => ?_⟩
      have hpairs := nameValues_same hsame (fun a ha => by simpa using (List.all_eq_true.mp hall) a ha)
      have hfilter : (args.filter (named d.1)).map nameValue = [some d] := by
        have hmap : ∀ l : List (Node σ), (l.filter (named d.1)).map nameValue =
            (l.map nameValue).filter (fun p => p.map Prod.fst == some d.1) := by
          intro l
          rw [List.filter_map]
          rfl
        rw [hmap, hpairs, ← hmap, replaceOwned_named hkeys args hd]
        simp
      obtain ⟨a, ha, hp⟩ := List.map_eq_singleton_iff.mp hfilter
      exact ⟨a, ha, hp⟩
  case keyed => exact hafter
  case again =>
    intro doc' hdoc
    simp only [setKubeadmArgs, hdoc, hv, if_true, get_assign, Option.getD_some, hall', replaceOwned_twice,
      assign_assign, sameOption, Node.same_refl _ hafter, Bool.not_true]

theorem setKubeadmArgs_map (hkeys : (desired.map Prod.fst).Nodup) (hkeyed : keyedEntries parent)
    (hv : textAt "apiVersion" doc = some kubeadmV3) {args : Entries σ}
    (hargs : (DataTree.get field parent).getD (.map []) = .map args) :
    SetsArgs doc parent field desired (.map (updateAll desired args)) := by
  have hitems : keyedEntries args := by
    cases hg : DataTree.get field parent with
    | none =>
      have : args = [] := by simpa [hg] using hargs.symm
      simp [this, keyedEntries]
    | some v =>
      have hv : v = .map args := by simpa [hg] using hargs
      have := keyedEntries_get hkeyed hg
      simpa [hv, Node.Keyed] using this
  have hupdated : keyedEntries (updateAll desired args) := keyedEntries_updateAll hitems
  have hafter : (Node.map (updateAll desired args)).Keyed := by rwa [Node.Keyed]
  have hne : some kubeadmV3 ≠ some kubeadmV4 := by simpa using kubeadmV3_ne
  have hone : ∀ d ∈ desired,
      (updateAll desired args).filter (fun e => isKey d.1 e.1) = [(.str d.1, .str d.2)] :=
    fun d hd => entries_of_key hupdated (get_updateAll hkeys args hd)
  constructor
  case result => simp only [setKubeadmArgs, hv, if_neg hne, if_true, hargs]
  case set => exact .inr ⟨args, _, hv, hargs, rfl, unlisted_updateAll args, hone⟩
  case standing =>
    intro hsame
    cases hg : DataTree.get field parent with
    | none => simp [hg, sameOption] at hsame
    | some v =>
      have hvm : v = .map args := by simpa [hg] using hargs
      subst hvm
      simp only [hg, sameOption, Node.same, Bool.and_eq_true, beq_iff_eq] at hsame
      refine .inr ⟨args, args, hv, rfl, rfl, rfl, fun d hd => entries_of_key hitems ?_⟩
      -- the update added nothing, so the key was there, and with an equal value
      obtain ⟨w, hw⟩ := Option.isSome_iff_exists.mp (updateAll_present hsame.1.symm d hd)
      obtain ⟨w', hw', hww⟩ := within_get hsame.2 hw
      rw [get_updateAll hkeys args hd, Option.some.injEq] at hw'
      subst hw'
      rw [hw, same_str_right hww]
  case keyed => exact hafter
  case again =>
    intro doc' hdoc
    have hfixed : updateAll desired (updateAll desired args) = updateAll desired args :=
      updateAll_fixed fun d hd => get_updateAll hkeys args hd
    simp only [setKubeadmArgs, hdoc, hv, if_neg hne, if_true, get_assign, Option.getD_some, hfixed, assign_assign,
      sameOption, Node.same_refl _ hafter, Bool.not_true]

/-- Arguments in either shape are set. -/
theorem setKubeadmArgs_shaped (hkeys : (desired.map Prod.fst).Nodup) (hkeyed : keyedEntries parent)
    (h : argsShaped doc parent field = true) : ∃ after, SetsArgs doc parent field desired after := by
  by_cases hv : textAt "apiVersion" doc = some kubeadmV4
  · simp only [argsShaped, if_pos hv] at h
    cases hargs : (DataTree.get field parent).getD (.list []) with
    | list args =>
      simp only [hargs] at h
      exact ⟨_, setKubeadmArgs_list hkeys hkeyed hv hargs h⟩
    | map es => simp [hargs] at h
    | scalar c => simp [hargs] at h
  · simp only [argsShaped, if_neg hv] at h
    by_cases hv' : textAt "apiVersion" doc = some kubeadmV3
    · simp only [if_pos hv'] at h
      cases hargs : (DataTree.get field parent).getD (.map []) with
      | list args => simp [hargs] at h
      | map args => exact ⟨_, setKubeadmArgs_map hkeys hkeyed hv' hargs⟩
      | scalar c => simp [hargs] at h
    · simp [if_neg hv'] at h

end reflexive

/-- The arguments under two nested fields are set, and nothing else of the outer field changed. -/
def Wired (outer inner : String) (desired : List (String × String)) (doc doc' : Entries σ) : Prop :=
  ∃ parent parent', (DataTree.get outer doc).getD (.map []) = .map parent ∧ DataTree.get outer doc' = some (.map parent') ∧
    others inner parent' = others inner parent ∧
    ArgsSet (textAt "apiVersion" doc) desired (DataTree.get inner parent) (DataTree.get inner parent')

section wiring

variable {outer inner : String} {after : Node σ} (h : SetsArgs doc parent inner desired after)
  (hparent : (DataTree.get outer doc).getD (.map []) = .map parent)

include h hparent

theorem wired_assign : Wired outer inner desired doc (assign outer (.map (assign inner after parent)) doc) :=
  ⟨parent, _, hparent, get_assign _ _ _, others_assign _ _ _, by rw [get_assign]; exact h.set⟩

theorem wired_standing (hsame : sameOption (DataTree.get inner parent) (some after) = true) :
    Wired outer inner desired doc doc := by
  refine ⟨parent, parent, hparent, ?_, rfl, h.standing hsame⟩
  cases hg : DataTree.get outer doc with
  | some v => simpa [hg] using hparent
  | none =>
    have : parent = [] := by simpa [hg] using hparent.symm
    simp [this, DataTree.get, sameOption] at hsame

/-- A changed value changes the document. -/
theorem wired_changed [ReflBEq σ] (hsame : sameOption (DataTree.get inner parent) (some after) = false) :
    assign outer (.map (assign inner after parent)) doc ≠ doc := by
  intro heq
  have hget : DataTree.get outer doc = some (.map (assign inner after parent)) := by
    rw [← heq, get_assign]
  have hpar : assign inner after parent = parent := by simpa [hget] using hparent
  rw [← hpar, get_assign] at hsame
  simp [sameOption, Node.same_refl _ h.keyed] at hsame

end wiring

/-- Exactly one provider-id argument in every Init- or JoinConfiguration; all else is equal. -/
def ProviderIdSet (providerId : String) : Node σ → Node σ → Prop
  | .map doc, patched =>
    if registersNode doc = true then
      ∃ doc', patched = .map doc' ∧ others "nodeRegistration" doc' = others "nodeRegistration" doc ∧
        Wired "nodeRegistration" "kubeletExtraArgs" [("provider-id", providerId)] doc doc'
    else patched = .map doc
  | doc, patched => patched = doc

/-- The arguments and the external section of every ClusterConfiguration; all else is equal. -/
def ExternalEtcdSet (etcd : NormalizedEtcd) : Node σ → Node σ → Prop
  | .map doc, patched =>
    if textAt "kind" doc = some "ClusterConfiguration" then
      ∃ doc', patched = .map doc' ∧ others "etcd" (others "apiServer" doc') = others "etcd" (others "apiServer" doc) ∧
        Wired "apiServer" "extraArgs" (etcdArgs etcd) doc doc' ∧
        sameOption (DataTree.get "etcd" doc') (some (desiredEtcd etcd)) = true
    else patched = .map doc
  | doc, patched => patched = doc

/-- What is expected of a patch of single documents, by the shape of the document. -/
structure PatchesDocs (patchDoc : Node σ → Except Exc (Node σ × Bool × Bool)) (Set : Node σ → Node σ → Prop)
    (refused stuck : Node σ → Bool) : Prop where
  stops : ∀ d, stuck d = true → patchDoc d = .error unhashableError
  refuses : ∀ d, stuck d = false → refused d = true → ∃ message, patchDoc d = .error (.permanent message)
  patches : ∀ d, stuck d = false → refused d = false → d.Keyed → ∃ d' saw changed,
    patchDoc d = .ok (d', saw, changed) ∧ Set d d' ∧ (changed = false → Set d d) ∧ (changed = true → d' ≠ d) ∧
      isNull d' = isNull d ∧ patchDoc d' = .ok (d', saw, false)

/-- The parent of the arguments and the arguments themselves have an accepted shape. -/
def wirable (outer inner : String) (doc : Entries σ) : Bool :=
  match (DataTree.get outer doc).getD (.map []) with
  | .map parent => argsShaped doc parent inner
  | _ => false

def providerIdStuck : Node σ → Bool
  | .map doc => unhashable (DataTree.get "kind" doc)
  | _ => false

def providerIdRefused : Node σ → Bool
  | .map doc => registersNode doc && !wirable "nodeRegistration" "kubeletExtraArgs" doc
  | _ => false

def etcdStuck : Node σ → Bool
  | .map doc => joinsControlPlane doc && unhashable (DataTree.get "apiVersion" doc)
  | _ => false

def etcdRefused : Node σ → Bool
  | .map doc =>
    if joinsControlPlane doc then
      textAt "apiVersion" doc != some kubeadmV3 && textAt "apiVersion" doc != some kubeadmV4
    else textAt "kind" doc == some "ClusterConfiguration" && !wirable "apiServer" "extraArgs" doc
  | _ => false

omit [BEq σ] in
theorem wirable_parent {outer inner : String} (h : wirable outer inner doc = true) :
    ∃ parent, (DataTree.get outer doc).getD (.map []) = .map parent ∧ argsShaped doc parent inner = true := by
  cases hp : (DataTree.get outer doc).getD (.map []) with
  | map parent => exact ⟨parent, rfl, by simpa [wirable, hp] using h⟩
  | list as => simp [wirable, hp] at h
  | scalar c => simp [wirable, hp] at h

theorem keyed_parent {outer : String} (hdoc : keyedEntries doc)
    (hparent : (DataTree.get outer doc).getD (.map []) = .map parent) : keyedEntries parent := by
  cases hg : DataTree.get outer doc with
  | none =>
    have : parent = [] := by simpa [hg] using hparent.symm
    simp [this, keyedEntries]
  | some v =>
    have hv : v = .map parent := by simpa [hg] using hparent
    have := keyedEntries_get hdoc hg
    simpa [hv, Node.Keyed] using this

omit [BEq σ] in
theorem textAt_assign {k l : String} (hne : l ≠ k) (v : Node σ) (es : Entries σ) :
    textAt l (assign k v es) = textAt l es := by
  rw [textAt, textAt, get_assign_of_ne hne]

/-- The patch for the provider ID sets it, and only it. -/
theorem patchProviderIdDoc_patches [ReflBEq σ] (providerId : String) :
    PatchesDocs (patchProviderIdDoc providerId) (ProviderIdSet (σ := σ) providerId) providerIdRefused
      providerIdStuck := by
  have hargs : ([("provider-id", providerId)].map Prod.fst).Nodup := by simp
  constructor
  case stops =>
    intro d hd
    cases d with
    | map doc => simp only [providerIdStuck] at hd; simp only [patchProviderIdDoc, if_pos hd]
    | scalar c => simp [providerIdStuck] at hd
    | list as => simp [providerIdStuck] at hd
  case refuses =>
    intro d hd hr
    cases d with
    | map doc =>
      simp only [providerIdStuck, providerIdRefused, Bool.and_eq_true, Bool.not_eq_true'] at hd hr
      obtain ⟨hreg, hwire⟩ := hr
      unfold patchProviderIdDoc
      dsimp only
      rw [if_neg (by simp [hd]), if_neg (by simp [hreg])]
      cases hparent : (DataTree.get "nodeRegistration" doc).getD (.map []) with
      | map parent =>
        simp only [wirable, hparent] at hwire
        obtain ⟨m, hm⟩ := setKubeadmArgs_refused [("provider-id", providerId)] hwire
        exact ⟨m, by simp only [hm]; rfl⟩
      | list as => exact ⟨_, rfl⟩
      | scalar c => exact ⟨_, rfl⟩
    | scalar c => simp [providerIdRefused] at hr
    | list as => simp [providerIdRefused] at hr
  case patches =>
    intro d hd hr hkeyed
    cases d with
    | scalar c => exact ⟨_, _, _, rfl, rfl, fun _ => rfl, by simp, rfl, rfl⟩
    | list as => exact ⟨_, _, _, rfl, rfl, fun _ => rfl, by simp, rfl, rfl⟩
    | map doc =>
      simp only [providerIdStuck, providerIdRefused, Node.Keyed] at hd hr hkeyed
      by_cases hreg : registersNode doc = true
      · have hwire : wirable "nodeRegistration" "kubeletExtraArgs" doc = true := by simpa [hreg] using hr
        obtain ⟨parent, hparent, hshape⟩ := wirable_parent hwire
        obtain ⟨after, hset⟩ := setKubeadmArgs_shaped hargs (keyed_parent hkeyed hparent) hshape
        have hkind : ∀ v : Node σ, textAt "kind" (assign "nodeRegistration" v doc) = textAt "kind" doc :=
          fun v => textAt_assign (by decide) v doc
        refine ⟨.map (assign "nodeRegistration" (.map (assign "kubeletExtraArgs" after parent)) doc), true,
          !sameOption (DataTree.get "kubeletExtraArgs" parent) (some after), ?_, ?_, ?_, ?_, rfl, ?_⟩
        · simp [patchProviderIdDoc, hd, hreg, hparent, hset.result]
        · simp only [ProviderIdSet, if_pos hreg]
          exact ⟨_, rfl, others_assign _ _ _, wired_assign hset hparent⟩
        · intro hsame
          simp only [ProviderIdSet, if_pos hreg]
          exact ⟨_, rfl, rfl, wired_standing hset hparent (by simpa using hsame)⟩
        · intro hsame heq
          exact wired_changed hset hparent (by simpa using hsame) (by simpa using heq)
        · have hagain := hset.again (assign "nodeRegistration" (.map (assign "kubeletExtraArgs" after parent)) doc)
            (textAt_assign (by decide) _ _)
          simp only [patchProviderIdDoc, registersNode, hkind, get_assign, get_assign_of_ne (l := "kind")
            (k := "nodeRegistration") (by decide), hd, Option.getD_some, hagain, assign_assign]
          simp only [registersNode] at hreg
          simp [hreg]
      · refine ⟨.map doc, false, false, ?_, ?_, ?_, by simp, rfl, ?_⟩
        · simp [patchProviderIdDoc, hd, hreg]
        · simp [ProviderIdSet, hreg]
        · simp [ProviderIdSet, hreg]
        · simp [patchProviderIdDoc, hd, hreg]

theorem desiredEtcd_keyed (etcd : NormalizedEtcd) : (desiredEtcd etcd : Node σ).Keyed := by
  simp [desiredEtcd, Node.Keyed, keyedEntries, Node.str, Scalar.same, keyedItems_iff]

/-- The same of the external etcd. -/
theorem patchExternalEtcdDoc_patches [ReflBEq σ] (etcd : NormalizedEtcd) :
    PatchesDocs (patchExternalEtcdDoc etcd) (ExternalEtcdSet (σ := σ) etcd) etcdRefused etcdStuck := by
  have hargs : ((etcdArgs etcd).map Prod.fst).Nodup := by simp [etcdArgs]
  constructor
  case stops =>
    intro d hd
    cases d with
    | map doc =>
      simp only [etcdStuck, Bool.and_eq_true] at hd
      simp only [patchExternalEtcdDoc, if_pos hd]
    | scalar c => simp [etcdStuck] at hd
    | list as => simp [etcdStuck] at hd
  case refuses =>
    intro d hd hr
    cases d with
    | scalar c => simp [etcdRefused] at hr
    | list as => simp [etcdRefused] at hr
    | map doc =>
      simp only [etcdStuck, etcdRefused] at hd hr
      unfold patchExternalEtcdDoc
      dsimp only
      by_cases hj : joinsControlPlane doc = true
      · simp only [hj, Bool.true_and, if_true, Bool.and_eq_true, bne_iff_ne, ne_eq] at hd hr
        rw [if_neg (by simp [hd]), if_pos ⟨hj, hr⟩]
        exact ⟨_, rfl⟩
      · simp only [hj, Bool.false_eq_true, if_false, Bool.and_eq_true, beq_iff_eq, Bool.not_eq_true'] at hr
        obtain ⟨hkind, hwire⟩ := hr
        rw [if_neg (by simp [hj]), if_neg (by simp [hj]), if_neg (by simp [hkind])]
        cases hparent : (DataTree.get "apiServer" doc).getD (.map []) with
        | map parent =>
          simp only [wirable, hparent] at hwire
          obtain ⟨m, hm⟩ := setKubeadmArgs_refused (etcdArgs etcd) hwire
          exact ⟨m, by simp only [hm]; rfl⟩
        | list as => exact ⟨_, rfl⟩
        | scalar c => exact ⟨_, rfl⟩
  case patches =>
    intro d hd hr hkeyed
    cases d with
    | scalar c => exact ⟨_, _, _, rfl, rfl, fun _ => rfl, by simp, rfl, rfl⟩
    | list as => exact ⟨_, _, _, rfl, rfl, fun _ => rfl, by simp, rfl, rfl⟩
    | map doc =>
      simp only [etcdStuck, etcdRefused, Node.Keyed] at hd hr hkeyed
      by_cases hkind : textAt "kind" doc = some "ClusterConfiguration"
      · have hj : joinsControlPlane doc = false := by simp [joinsControlPlane, hkind]
        have hwire : wirable "apiServer" "extraArgs" doc = true := by simpa [hj, hkind] using hr
        obtain ⟨parent, hparent, hshape⟩ := wirable_parent hwire
        obtain ⟨after, hset⟩ := setKubeadmArgs_shaped hargs (keyed_parent hkeyed hparent) hshape
        have hrefl := Node.same_refl _ (desiredEtcd_keyed (σ := σ) etcd)
        have hetcd : ∀ v : Node σ, DataTree.get "etcd" (assign "apiServer" v doc) = DataTree.get "etcd" doc :=
          fun v => get_assign_of_ne (by decide) v doc
        by_cases hsame : sameOption (DataTree.get "etcd" doc) (some (desiredEtcd etcd)) = true
        · -- the external section is there already
          refine ⟨.map (assign "apiServer" (.map (assign "extraArgs" after parent)) doc), true,
            !sameOption (DataTree.get "extraArgs" parent) (some after), ?_, ?_, ?_, ?_, rfl, ?_⟩
          · simp [patchExternalEtcdDoc, hj, hkind, hparent, hset.result, hetcd, hsame]
          · simp only [ExternalEtcdSet, if_pos hkind]
            exact ⟨_, rfl, by rw [others_assign], wired_assign hset hparent, by rw [hetcd]; exact hsame⟩
          · intro h
            simp only [ExternalEtcdSet, if_pos hkind]
            exact ⟨_, rfl, rfl, wired_standing hset hparent (by simpa using h), hsame⟩
          · intro h heq
            exact wired_changed hset hparent (by simpa using h) (by simpa using heq)
          · have hagain := hset.again (assign "apiServer" (.map (assign "extraArgs" after parent)) doc)
              (textAt_assign (by decide) _ _)
            have hkind' := (textAt_assign (l := "kind") (k := "apiServer") (by decide)
              (.map (assign "extraArgs" after parent)) doc).trans hkind
            simp [patchExternalEtcdDoc, joinsControlPlane, hkind', hagain, assign_assign, hetcd, hsame]
        · refine ⟨.map (assign "etcd" (desiredEtcd etcd)
            (assign "apiServer" (.map (assign "extraArgs" after parent)) doc)), true, true, ?_, ?_, by simp, ?_, rfl, ?_⟩
          · simp [patchExternalEtcdDoc, hj, hkind, hparent, hset.result, hetcd, hsame]
          · simp only [ExternalEtcdSet, if_pos hkind]
            refine ⟨_, rfl, ?_, ?_, by simp [sameOption, hrefl]⟩
            · rw [← others_comm, others_assign, ← others_comm, others_assign]
            · have hwired : Wired "apiServer" "extraArgs" (etcdArgs etcd) doc _ := wired_assign hset hparent
              obtain ⟨p, p', hp, hp', hrest⟩ := hwired
              exact ⟨p, p', hp, by rw [get_assign_of_ne (by decide)]; exact hp', hrest⟩
          · intro _ heq
            have hdoc : assign "etcd" (desiredEtcd etcd)
                (assign "apiServer" (.map (assign "extraArgs" after parent)) doc) = doc := by simpa using heq
            rw [← hdoc, get_assign] at hsame
            simp [sameOption, hrefl] at hsame
          · have hagain := hset.again (assign "etcd" (desiredEtcd etcd)
              (assign "apiServer" (.map (assign "extraArgs" after parent)) doc))
              (by rw [textAt_assign (by decide), textAt_assign (by decide)])
            have hkind' : textAt "kind" (assign "etcd" (desiredEtcd etcd)
                (assign "apiServer" (.map (assign "extraArgs" after parent)) doc)) = some "ClusterConfiguration" := by
              rw [textAt_assign (by decide), textAt_assign (by decide), hkind]
            have hout : DataTree.get "apiServer" (assign "etcd" (desiredEtcd etcd)
                (assign "apiServer" (.map (assign "extraArgs" after parent)) doc)) =
                some (.map (assign "extraArgs" after parent)) := by
              rw [get_assign_of_ne (by decide), get_assign]
            have hdone : sameOption (DataTree.get "etcd" (assign "etcd" (desiredEtcd etcd)
                (assign "apiServer" (.map (assign "extraArgs" after parent)) doc))) (some (desiredEtcd etcd)) = true := by
              rw [get_assign]
              exact hrefl
            simp [patchExternalEtcdDoc, joinsControlPlane, hkind', hout, hagain]
            simp only [bind, Except.bind, assign_get hout, hdone, if_true]
            rfl
      · have hsame : patchExternalEtcdDoc etcd (.map doc) = .ok (.map doc, joinsControlPlane doc, false) := by
          unfold patchExternalEtcdDoc
          dsimp only
          rw [if_neg (by simpa using hd), if_neg, if_pos hkind]
          rintro ⟨hj, h3, h4⟩
          simp [hj, h3, h4] at hr
        refine ⟨.map doc, joinsControlPlane doc, false, hsame, ?_, ?_, by simp, rfl, hsame⟩
        · simp [ExternalEtcdSet, hkind]
        · simp [ExternalEtcdSet, hkind]

/-- In the order of the documents, none stops the patch before one is refused. -/
def runsThrough (refused stuck : Node σ → Bool) : List (Node σ) → Bool
  | [] => true
  | doc :: docs => !stuck doc && (refused doc || runsThrough refused stuck docs)

section lists

variable {patchDoc : Node σ → Except Exc (Node σ × Bool × Bool)} {Set : Node σ → Node σ → Prop}
  {refused stuck : Node σ → Bool} (h : PatchesDocs patchDoc Set refused stuck)

include h

/-- A document that cannot be looked up stops the loop, unless one before it was refused. -/
theorem patchDocs_stuck {docs : List (Node σ)} (hkeyed : ∀ d ∈ docs, d.Keyed)
    (hstuck : runsThrough refused stuck docs = false) : patchDocs patchDoc docs = .error unhashableError := by
  induction docs with
  | nil => simp [runsThrough] at hstuck
  | cons doc docs ih =>
    simp only [List.mem_cons, forall_eq_or_imp] at hkeyed
    simp only [runsThrough, Bool.and_eq_false_iff, Bool.not_eq_false', Bool.or_eq_false_iff] at hstuck
    by_cases hs : stuck doc = true
    · simp only [patchDocs, h.stops doc hs, bind, Except.bind]
    · obtain ⟨hr, hrest⟩ := hstuck.resolve_left hs
      obtain ⟨d', saw, changed, hd, -⟩ := h.patches doc (by simpa using hs) hr hkeyed.1
      simp only [patchDocs, hd, ih hkeyed.2 hrest, bind, Except.bind]

/-- A run through all documents ends in a refusal or in a list of patched documents. -/
theorem patchDocs_through {docs : List (Node σ)} (hkeyed : ∀ d ∈ docs, d.Keyed)
    (hthrough : runsThrough refused stuck docs = true) :
    (∃ message, patchDocs patchDoc docs = .error (.permanent message)) ∨
      ∃ docs' saw changed, patchDocs patchDoc docs = .ok (docs', saw, changed) ∧ List.Forall₂ Set docs docs' ∧
        (changed = false → List.Forall₂ Set docs docs) ∧ (changed = true → docs' ≠ docs) ∧
        docs'.map isNull = docs.map isNull ∧ patchDocs patchDoc docs' = .ok (docs', saw, false) := by
  induction docs with
  | nil => exact .inr ⟨[], false, false, rfl, .nil, fun _ => .nil, by simp, rfl, rfl⟩
  | cons doc docs ih =>
    simp only [List.mem_cons, forall_eq_or_imp] at hkeyed
    simp only [runsThrough, Bool.and_eq_true, Bool.not_eq_true', Bool.or_eq_true] at hthrough
    by_cases hr : refused doc = true
    · obtain ⟨m, hm⟩ := h.refuses doc hthrough.1 hr
      exact .inl ⟨m, by simp only [patchDocs, hm, bind, Except.bind]⟩
    · obtain ⟨d', saw, changed, hd, hset, hstand, hne, hnull, hagain⟩ :=
        h.patches doc hthrough.1 (by simpa using hr) hkeyed.1
      rcases ih hkeyed.2 (hthrough.2.resolve_left hr) with ⟨m, hm⟩ | ⟨ds', saws, changes, hds, hsets, hstands, hnes, hnulls, hagains⟩
      · exact .inl ⟨m, by simp only [patchDocs, hd, hm, bind, Except.bind]⟩
      · refine .inr ⟨d' :: ds', saw || saws, changed || changes, ?_, .cons hset hsets, ?_, ?_, ?_, ?_⟩
        · simp only [patchDocs, hd, hds, bind, Except.bind]
          rfl
        · intro hch
          simp only [Bool.or_eq_false_iff] at hch
          exact .cons (hstand hch.1) (hstands hch.2)
        · intro hch heq
          simp only [List.cons.injEq] at heq
          rcases Bool.or_eq_true _ _ |>.mp hch with hch | hch
          · exact hne hch heq.1
          · exact hnes hch heq.2
        · simp only [List.map_cons, hnull, hnulls]
        · simp only [patchDocs, hagain, hagains, bind, Except.bind]
          rfl

end lists

/-- A patch of a text is refused for good, or else its output reads as documents that are
set and otherwise as before, its flag says whether they differ, and it is a fixpoint. -/
def Patched (yaml : YamlLibrary σ) (patch : String → Except Exc (String × Bool × Bool))
    (Set : Node σ → Node σ → Prop) (text : String) (docs : List (Node σ)) : Prop :=
  match patch text with
  | .error e => e.isPermanent = true
  | .ok (out, saw, changed) => ∃ docs', yaml.documents out = some docs' ∧ List.Forall₂ Set docs docs' ∧
      (changed = true ↔ docs' ≠ docs) ∧ patch out = .ok (out, saw, false)

/-- What the library wrote for the patched documents, it reads as these documents. -/
def ReadsBack (yaml : YamlLibrary σ) (patchDoc : Node σ → Except Exc (Node σ × Bool × Bool)) (docs : List (Node σ)) :
    Prop :=
  ∀ docs' saw, patchDocs patchDoc docs = .ok (docs', saw, true) → yaml.safeLoadAll (yaml.render docs') = some docs'

omit [BEq σ] in
theorem documents_not_null {yaml : YamlLibrary σ} {text : String} {docs : List (Node σ)}
    (h : yaml.documents text = some docs) : ∀ d ∈ docs, isNull d = false := by
  obtain ⟨all, -, rfl⟩ := Option.map_eq_some_iff.mp h
  intro d hd
  simpa using (List.mem_filter.mp hd).2

omit [BEq σ] in
theorem patchKubeadmYaml_docs {yaml : YamlLibrary σ} {patchDoc : Node σ → Except Exc (Node σ × Bool × Bool)}
    {text : String} {docs : List (Node σ)} (h : yaml.documents text = some docs) :
    patchKubeadmYaml yaml patchDoc text = (patchDocs patchDoc docs).map fun r =>
      if r.2.2 then (yaml.render r.1, r.2.1, true) else (text, r.2.1, false) := by
  unfold patchKubeadmYaml
  rw [h]
  cases docs with
  | nil => rfl
  | cons d ds =>
    dsimp only
    cases patchDocs patchDoc (d :: ds) with
    | error e => rfl
    | ok r =>
      obtain ⟨ds', saw, changed⟩ := r
      cases changed <;> rfl

theorem patched_iff {patchDoc : Node σ → Except Exc (Node σ × Bool × Bool)} {Set : Node σ → Node σ → Prop}
    {refused stuck : Node σ → Bool} (h : PatchesDocs patchDoc Set refused stuck) {yaml : YamlLibrary σ} {text : String}
    {docs : List (Node σ)} (hdocs : yaml.documents text = some docs) (hkeyed : ∀ d ∈ docs, d.Keyed)
    (hback : ReadsBack yaml patchDoc docs) :
    Patched yaml (patchKubeadmYaml yaml patchDoc) Set text docs ↔ runsThrough refused stuck docs = true := by
  unfold Patched
  rw [patchKubeadmYaml_docs hdocs]
  cases hrun : runsThrough refused stuck docs with
  | false =>
    rw [patchDocs_stuck h hkeyed hrun]
    simp [Except.map, unhashableError, Exc.isPermanent]
  | true =>
    simp only [iff_true]
    rcases patchDocs_through h hkeyed hrun with ⟨m, hm⟩ | ⟨docs', saw, changed, hd, hset, hstand, hne, hnull, hagain⟩
    · rw [hm]
      rfl
    · rw [hd]
      cases changed with
      | false =>
        refine ⟨docs, hdocs, hstand rfl, by simp, ?_⟩
        rw [patchKubeadmYaml_docs hdocs, hd]
        rfl
      | true =>
        have hout : yaml.documents (yaml.render docs') = some docs' := by
          rw [YamlLibrary.documents, hback docs' saw hd, Option.map_some]
          congr 1
          rw [List.filter_eq_self]
          intro d hd'
          have hmem : isNull d ∈ docs.map isNull := hnull ▸ List.mem_map_of_mem hd'
          obtain ⟨e, he, heq⟩ := List.mem_map.mp hmem
          simp [← heq, documents_not_null hdocs e he]
        refine ⟨docs', hout, hset, by simpa using hne rfl, ?_⟩
        rw [patchKubeadmYaml_docs hout, hagain]
        rfl

/-- Both patches keep their promise for exactly the texts whose documents stop neither of
them with an error of Python's own. -/
theorem kubeadm_patches [ReflBEq σ] (yaml : YamlLibrary σ) (providerId : String) (etcd : NormalizedEtcd) {text : String}
    {docs : List (Node σ)} (hdocs : yaml.documents text = some docs) (hkeyed : ∀ d ∈ docs, d.Keyed)
    (hback : ReadsBack yaml (patchProviderIdDoc providerId) docs)
    (hback' : ReadsBack yaml (patchExternalEtcdDoc etcd) docs) :
    (Patched yaml (fun t => patchProviderIdInKubeadmYaml yaml t providerId) (ProviderIdSet providerId) text docs ∧
      Patched yaml (fun t => patchExternalEtcdInKubeadmYaml yaml t etcd) (ExternalEtcdSet etcd) text docs) ↔
    (runsThrough providerIdRefused providerIdStuck docs = true ∧ runsThrough etcdRefused etcdStuck docs = true) :=
  and_congr (patched_iff (patchProviderIdDoc_patches providerId) hdocs hkeyed hback)
    (patched_iff (patchExternalEtcdDoc_patches etcd) hdocs hkeyed hback')

def joinText : String := "apiVersion: kubeadm.k8s.io/v1beta4\nkind: JoinConfiguration\n"

def joinPatchedText : String :=
  "apiVersion: kubeadm.k8s.io/v1beta4\nkind: JoinConfiguration\nnodeRegistration:\n  kubeletExtraArgs:\n" ++
    "  - name: provider-id\n    value: ssh://10.0.0.1"

def joinDoc : Node Bool := .map [(.str "apiVersion", .str kubeadmV4), (.str "kind", .str "JoinConfiguration")]

def joinPatchedDoc : Node Bool :=
  .map [(.str "apiVersion", .str kubeadmV4), (.str "kind", .str "JoinConfiguration"),
    (.str "nodeRegistration", .map [(.str "kubeletExtraArgs", .list [argument ("provider-id", "ssh://10.0.0.1")])])]

def joinYaml : YamlLibrary Bool where
  safeLoadAll text :=
    if text = joinText then some [joinDoc] else if text = joinPatchedText then some [joinPatchedDoc] else none
  safeDumpAll docs := if sameItems docs [joinPatchedDoc] then joinPatchedText ++ "\n" else ""

def joinEtcd : NormalizedEtcd :=
  ⟨["https://10.0.0.2:2379"], "https://10.0.0.2:2379", "/pki/ca.crt", "/pki/client.crt", "/pki/client.key"⟩

def clusterDoc : Node Bool := .map [(.str "apiVersion", .str kubeadmV4), (.str "kind", .str "ClusterConfiguration")]

def clusterPatchedDoc : Node Bool :=
  .map [(.str "apiVersion", .str kubeadmV4), (.str "kind", .str "ClusterConfiguration"),
    (.str "apiServer", .map [(.str "extraArgs", .list ((etcdArgs joinEtcd).map argument))]),
    (.str "etcd", desiredEtcd joinEtcd)]

def versionLine : Line := "apiVersion: kubeadm.k8s.io/v1beta4".toList

def clusterBody : List Line := [versionLine, "kind: ClusterConfiguration".toList]

def clusterPatchedBody : List Line :=
  clusterBody ++ ["apiServer:".toList, "  extraArgs:".toList, "  - name: etcd-servers".toList,
    "    value: https://10.0.0.2:2379".toList, "  - name: etcd-cafile".toList, "    value: /pki/ca.crt".toList,
    "  - name: etcd-certfile".toList, "    value: /pki/client.crt".toList, "  - name: etcd-keyfile".toList,
    "    value: /pki/client.key".toList, "etcd:".toList, "  external:".toList, "    endpoints:".toList,
    "    - https://10.0.0.2:2379".toList, "    caFile: /pki/ca.crt".toList, "    certFile: /pki/client.crt".toList,
    "    keyFile: /pki/client.key".toList]

def joinBody : List Line := [versionLine, "kind: JoinConfiguration".toList]

def joinPatchedBody : List Line :=
  joinBody ++ ["nodeRegistration:".toList, "  kubeletExtraArgs:".toList, "  - name: provider-id".toList,
    "    value: ssh://10.0.0.1".toList]

/-- The documents that the library knows, with their lines. -/
def clusterLines : List (Node Bool × List Line) :=
  [(clusterDoc, clusterBody), (clusterPatchedDoc, clusterPatchedBody), (joinDoc, joinBody),
    (joinPatchedDoc, joinPatchedBody)]

def documentLines (docs : List (Node Bool)) : List Line :=
  ["---".toList].intercalate (docs.map fun doc =>
    ((clusterLines.find? fun known => sameItems [known.1] [doc]).map Prod.snd).getD [])

def clusterFiles : List (List (Node Bool)) :=
  [[clusterDoc], [clusterPatchedDoc], [clusterDoc, joinDoc], [clusterDoc, joinPatchedDoc], [clusterPatchedDoc, joinDoc]]

def clusterFile (lines : List Line) : Option Nat := clusterFiles.findIdx? fun docs => documentLines docs == lines

def clusterYaml : YamlLibrary Bool where
  safeLoadAll text := (clusterFile (splitlines text.toList)).bind fun n => clusterFiles[n]?
  safeDumpAll docs := String.ofList (join (documentLines docs) ++ ['\n'])

/-- Lines without line breaks, of which the last is not empty. -/
def tidy (lines : List Line) : Bool :=
  lines.all (fun l => l.all fun c => !isLineBreak c) && lines.getLast? != some [] &&
    (join lines).getLast?.getD '\n' != '\n'

theorem splitlines_tidy {lines : List Line} (h : tidy lines = true) : splitlines (join lines) = lines := by
  simp only [tidy, Bool.and_eq_true, List.all_eq_true, Bool.not_eq_true', bne_iff_ne] at h
  exact splitlines_join h.1.1 h.1.2

/-- The files of the toy library are loaded as they are listed. -/
theorem clusterYaml_loads {lines : List Line} {n : Nat} (ht : tidy lines = true) (h : clusterFile lines = some n) :
    clusterYaml.safeLoadAll (String.ofList (join lines)) = clusterFiles[n]? := by
  change (clusterFile (splitlines (String.ofList (join lines)).toList)).bind _ = _
  rw [String.toList_ofList, splitlines_tidy ht, h]
  rfl

theorem clusterYaml_renders {docs : List (Node Bool)} (ht : tidy (documentLines docs) = true) :
    clusterYaml.render docs = String.ofList (join (documentLines docs)) := by
  simp only [tidy, Bool.and_eq_true, bne_iff_ne] at ht
  rw [YamlLibrary.render, rstripNewlines]
  change String.ofList (((String.ofList (join (documentLines docs) ++ ['\n'])).toList.reverse.dropWhile _).reverse) = _
  rw [String.toList_ofList, List.reverse_append]
  cases hr : (join (documentLines docs)).reverse with
  | nil =>
    rw [List.reverse_eq_nil_iff.mp hr] at ht
    exact absurd rfl ht.2
  | cons c l =>
    have hl : join (documentLines docs) = l.reverse ++ [c] := by
      rw [← List.reverse_reverse (join (documentLines docs)), hr, List.reverse_cons]
    rw [hl] at ht ⊢
    have hc : (c == '\n') = false := by simpa using ht.2
    simp [hc]

/-- A cluster configuration and a join configuration: one patch changes the first, the other the
second. -/
theorem kubeadm_patches_join :
    Patched clusterYaml (fun t => patchProviderIdInKubeadmYaml clusterYaml t "ssh://10.0.0.1")
      (ProviderIdSet "ssh://10.0.0.1") (String.ofList (join (documentLines [clusterDoc, joinDoc]))) [clusterDoc, joinDoc] ∧
    Patched clusterYaml (fun t => patchExternalEtcdInKubeadmYaml clusterYaml t joinEtcd) (ExternalEtcdSet joinEtcd)
      (String.ofList (join (documentLines [clusterDoc, joinDoc]))) [clusterDoc, joinDoc] := by
  have hid : patchDocs (patchProviderIdDoc "ssh://10.0.0.1") [clusterDoc, joinDoc] =
      .ok ([clusterDoc, joinPatchedDoc], true, true) := rfl
  have hetcd : patchDocs (patchExternalEtcdDoc joinEtcd) [clusterDoc, joinDoc] =
      .ok ([clusterPatchedDoc, joinDoc], true, true) := rfl
  have htidy : tidy (documentLines [clusterDoc, joinDoc]) = true ∧ tidy (documentLines [clusterDoc, joinPatchedDoc]) = true ∧
      tidy (documentLines [clusterPatchedDoc, joinDoc]) = true := by decide +kernel
  have hfile : clusterFile (documentLines [clusterDoc, joinDoc]) = some 2 ∧
      clusterFile (documentLines [clusterDoc, joinPatchedDoc]) = some 3 ∧
      clusterFile (documentLines [clusterPatchedDoc, joinDoc]) = some 4 := by decide +kernel
  have hdocs : clusterYaml.documents (String.ofList (join (documentLines [clusterDoc, joinDoc]))) =
      some [clusterDoc, joinDoc] := by
    rw [YamlLibrary.documents, clusterYaml_loads htidy.1 hfile.1]
    rfl
  refine (kubeadm_patches clusterYaml "ssh://10.0.0.1" joinEtcd hdocs ?_ ?_ ?_).mpr ⟨rfl, rfl⟩
  · simp [clusterDoc, joinDoc, Node.Keyed, keyedEntries, Node.str, Scalar.same]
  · intro docs' saw h
    rw [hid] at h
    simp only [Except.ok.injEq, Prod.mk.injEq] at h
    rw [← h.1, clusterYaml_renders htidy.2.1, clusterYaml_loads htidy.2.1 hfile.2.1]
    rfl
  · intro docs' saw h
    rw [hetcd] at h
    simp only [Except.ok.injEq, Prod.mk.injEq] at h
    rw [← h.1, clusterYaml_renders htidy.2.2, clusterYaml_loads htidy.2.2 hfile.2.2]
    rfl

/-- A mapping whose kind is a list, which a YAML text may well hold. -/
def listKindDoc : Node Bool := .map [(.str "kind", .list [])]

def listKindYaml : YamlLibrary Bool where
  safeLoadAll text := if text = "kind: []\n" then some [listKindDoc] else none
  safeDumpAll _ := ""

/-- A document whose kind is a list cannot be looked up. -/
theorem kubeadm_patches_listKind :
    listKindYaml.documents "kind: []\n" = some [listKindDoc] ∧ listKindDoc.Keyed ∧
    ReadsBack listKindYaml (patchProviderIdDoc "ssh://10.0.0.1") [listKindDoc] ∧
    ¬ Patched listKindYaml (fun t => patchProviderIdInKubeadmYaml listKindYaml t "ssh://10.0.0.1")
      (ProviderIdSet "ssh://10.0.0.1") "kind: []\n" [listKindDoc] := by
  have hrun : patchDocs (patchProviderIdDoc "ssh://10.0.0.1") [listKindDoc] = .error unhashableError := rfl
  refine ⟨rfl, ?_, ?_, ?_⟩
  · simp [listKindDoc, Node.Keyed, keyedEntries, keyedItems]
  · intro docs' saw h
    rw [hrun] at h
    simp at h
  · have hout : patchProviderIdInKubeadmYaml listKindYaml "kind: []\n" "ssh://10.0.0.1" = .error unhashableError := rfl
    simp [Patched, hout, unhashableError, Exc.isPermanent]

end CapiSsh
