import RobotGolf.Proofs.Step
/-!
# Properties of everything that is bound

A captured sequence is run in the scope that was captured with it, and the values in that scope may
be captured sequences again. What is to be known of every value that a machine can ever look up is
therefore **hereditary**: it is said of the values of a scope, of the values in the scopes captured
by these, and so on (`Env.Hereditary`).

A call binds values of three kinds. Some were bound before, and have the property already; some are
sequences quoted in the scope of the caller; some are numbers other than zero, because a zero has
the call skipped. `Argument.bindAll_hereditary` says so once for all properties, and
`Argument.binds_of_bindAll` says which names the new scope has.
-/

namespace RobotGolf

/-! ### Names -/

/-- A scope has a value for a name. -/
def Env.Binds (e : Env) (name : String) : Prop := (e.find? name).isSome = true

theorem Env.Binds.exists_lookup {e : Env} {name : String} (h : e.Binds name) :
    ∃ v, e.lookup name = .ok v := by
  obtain ⟨v, hv⟩ := Option.isSome_iff_exists.1 h
  exact ⟨v, by rw [Env.lookup, hv]⟩

/-- What a name is bound to behind a binding. -/
theorem Scope.find?_bind {κ : Type} (s : Scope κ) {name : Bytes} (hname : name ≠ [])
    (v : Value κ) (other : Bytes) :
    (s.bind name v).find? other = if other = name then some v else s.find? other := by
  have hfilter : other ≠ name →
      (s.bindings.filter (·.1 != name)).lookup other = s.bindings.lookup other := by
    intro hother
    induction s.bindings with
    | nil => rfl
    | cons b rest ih =>
      obtain ⟨key, w⟩ := b
      by_cases hkey : key = name
      · -- a binding that is dropped is not the one that is looked for
        have hne : (other == key) = false := by simpa [hkey] using hother
        simp [hkey, List.lookup_cons, ih, hkey ▸ hne]
      · simp [hkey, List.lookup_cons, ih]
  rw [Scope.bind, if_neg hname, Scope.find?, Scope.find?, List.lookup_cons]
  by_cases hother : other = name
  · simp [hother]
  · have hne : (other == name) = false := by simpa using hother
    simp only [hne, if_neg hother]
    exact hfilter hother

theorem Env.find?_bind (s : Scope Env) {name : String} (hname : name ≠ "") (v : Value Env)
    (other : String) : (Env.mk (s.bind (.ofString name) v)).find? other =
      if other = name then some v else (Env.mk s).find? other := by
  refine (Scope.find?_bind s (mt Bytes.ofString_eq_nil_iff.1 hname) v _).trans ?_
  simp only [Bytes.ofString_inj]
  rfl

/-- A call of matching length binds all names that it is given, and unbinds none. -/
theorem Argument.binds_of_bindAll {e : Env} {names : List String} {args : List Argument}
    (hlength : args.length = names.length) (hempty : "" ∉ names) {target scope : Scope Env}
    (h : Argument.bindAll e target names args = .ok (some scope)) :
    (∀ name ∈ names, (Env.mk scope).Binds name) ∧
      ∀ name, (Env.mk target).Binds name → (Env.mk scope).Binds name := by
  induction names generalizing args target with
  | nil =>
    obtain rfl : target = scope := by simpa [Argument.bindAll] using h
    exact ⟨by simp, fun _ hname ↦ hname⟩
  | cons first names ih =>
    rcases args with - | ⟨a, args⟩
    · simp at hlength
    rw [Argument.bindAll] at h
    rcases hv : a.value e with cause | v <;> rw [hv] at h
    · simp at h
    by_cases hzero : v.isZero = true
    · simp [hzero] at h
    · have hfirst : first ≠ "" := fun heq ↦ hempty (heq ▸ List.mem_cons_self ..)
      have hfind := Env.find?_bind target hfirst v
      obtain ⟨hnames, hkept⟩ := ih (by simpa using hlength)
        (fun hmem ↦ hempty (List.mem_cons_of_mem _ hmem)) (by simpa [hzero] using h)
      refine ⟨List.forall_mem_cons.2 ⟨hkept first ?_, hnames⟩, fun name hname ↦ hkept name ?_⟩
      · simp [Env.Binds, hfind]
      · rw [Env.Binds, hfind]
        split
        · rfl
        · exact hname

/-! ### Values -/

/-- All values of a scope have a property, and so have those of the scopes that are captured in
it. -/
inductive Env.Hereditary (Good : Value Env → Prop) : Env → Prop where
  | mk {scope : Scope Env} (values : ∀ b ∈ scope.bindings, Good b.2)
      (scopes : ∀ name body captured, (name, .deferred body captured) ∈ scope.bindings →
        Env.Hereditary Good captured) :
      Env.Hereditary Good (.mk scope)

/-- A value with a property that the scope it may have captured hands down. -/
structure Value.Hereditary (Good : Value Env → Prop) (v : Value Env) : Prop where
  good : Good v
  captured : ∀ body captured, v = .deferred body captured → captured.Hereditary Good

variable {Good : Value Env → Prop} {e : Env}

theorem Env.hereditary_iff {scope : Scope Env} :
    (Env.mk scope).Hereditary Good ↔ ∀ b ∈ scope.bindings, b.2.Hereditary Good := by
  constructor
  · rintro ⟨hvalues, hscopes⟩ ⟨name, v⟩ hb
    refine ⟨hvalues _ hb, ?_⟩
    rintro body captured rfl
    exact hscopes name body captured hb
  · intro h
    exact .mk (fun b hb ↦ (h b hb).good) fun _ body captured hb ↦
      (h _ hb).captured body captured rfl

theorem Env.hereditary_empty (name : Bytes) : (Env.mk (Scope.empty name)).Hereditary Good :=
  Env.hereditary_iff.2 (by simp [Scope.empty])

theorem Env.Hereditary.of_lookup (he : e.Hereditary Good) {name : String} {v : Value Env}
    (h : e.lookup name = .ok v) : v.Hereditary Good := by
  obtain ⟨scope⟩ := e
  rw [Env.lookup] at h
  rcases hfind : (Env.mk scope).find? name with - | w <;> rw [hfind] at h
  · simp at h
  · obtain rfl : w = v := by simpa using h
    have hmem : (.ofString name, w) ∈ scope.bindings := by
      obtain ⟨before, after, heq, -⟩ := List.lookup_eq_some_iff.1 hfind
      have heq : scope.bindings = before ++ (.ofString name, w) :: after := heq
      simp [heq]
    exact Env.hereditary_iff.1 he _ hmem

theorem Scope.hereditary_bind {scope : Scope Env} {name : Bytes} {v : Value Env}
    (hscope : (Env.mk scope).Hereditary Good) (hv : v.Hereditary Good) :
    (Env.mk (scope.bind name v)).Hereditary Good := by
  unfold bind
  split
  · exact hscope
  · refine Env.hereditary_iff.2 (List.forall_mem_cons.2 ⟨hv, fun b hb ↦ ?_⟩)
    exact Env.hereditary_iff.1 hscope b (List.mem_filter.1 hb).1

/-- The value of an argument: looked up, captured here and now, or a number. -/
theorem Argument.value_hereditary (he : e.Hereditary Good)
    (hnumber : ∀ n, n ≠ 0 → Good (.number n)) {a : Argument}
    (hquoted : ∀ body span, a = .quoted body span → Good (.deferred body e)) {v : Value Env}
    (h : a.value e = .ok v) (hzero : v.isZero = false) : v.Hereditary Good := by
  cases a with
  | parameter name span =>
    simp only [Argument.value] at h
    rcases hlookup : e.lookup name with failure | w <;> rw [hlookup] at h
    · simp at h
    · obtain rfl : w = v := by simpa using h
      exact he.of_lookup hlookup
  | quoted body span =>
    obtain rfl : .deferred body e = v := by simpa [Argument.value] using h
    refine ⟨hquoted body span rfl, ?_⟩
    rintro _ _ ⟨⟩
    exact he
  | arithmetic sum =>
    simp only [Argument.value] at h
    rcases hsum : Term.sum e 0 sum.terms with cause | n <;> rw [hsum] at h
    · simp at h
    · obtain rfl : .number n = v := by simpa using h
      refine ⟨hnumber n (by simpa [Value.isZero] using hzero), ?_⟩
      rintro _ _ ⟨⟩

/-- **A call hands properties of values down**: from the scope of the caller to the new one. -/
theorem Argument.bindAll_hereditary (he : e.Hereditary Good)
    (hnumber : ∀ n, n ≠ 0 → Good (.number n)) {names : List String} {args : List Argument}
    (hquoted : ∀ body span, .quoted body span ∈ args → Good (.deferred body e))
    {target scope : Scope Env} (htarget : (Env.mk target).Hereditary Good)
    (h : Argument.bindAll e target names args = .ok (some scope)) :
    (Env.mk scope).Hereditary Good := by
  induction names generalizing args target with
  | nil =>
    obtain rfl : target = scope := by simpa [Argument.bindAll] using h
    exact htarget
  | cons name names ih =>
    rcases args with - | ⟨a, args⟩
    · obtain rfl : target = scope := by simpa [Argument.bindAll] using h
      exact htarget
    rw [Argument.bindAll] at h
    rcases hv : a.value e with cause | v <;> rw [hv] at h
    · simp at h
    by_cases hzero : v.isZero = true
    · simp [hzero] at h
    · have hgood : v.Hereditary Good :=
        Argument.value_hereditary he hnumber (fun body span ha ↦ hquoted body span (by simp [ha]))
          hv (by simpa using hzero)
      exact ih (fun body span hmem ↦ hquoted body span (List.mem_cons_of_mem _ hmem))
        (Scope.hereditary_bind htarget hgood) (by simpa [hzero] using h)

end RobotGolf
