import RobotGolf.Proofs.Heredity
import RobotGolf.Proofs.WellFormed
/-!
# What a run of a well-formed program keeps

Everything that a machine comes across when it runs a well-formed program is a piece of that
program: the elements left on its frames, and the sequences that are captured in scopes, however
deep. `Machine.Tidy` is this invariant. It is **hereditary**: a captured sequence is run in the
scope that was captured with it, whose values may hold captured sequences again, so nothing weaker
than all scopes within scopes (`Env.Tidy`, see `Env.tidy_iff_hereditary`) would be kept by a step.

What is gained from it is that the machine is never stuck: only a sum with a blank operand has no
value, and a well-formed program holds none.
-/

namespace RobotGolf

/-! ### Values and scopes -/

/-- All sequences captured in a scope, and in the scopes captured with them, are well formed. -/
inductive Env.Tidy : Env → Prop where
  | mk {scope : Scope Env}
      (bodies : ∀ name body captured, (name, .deferred body captured) ∈ scope.bindings →
        ∀ x ∈ body, Element.WellFormed x)
      (scopes : ∀ name body captured, (name, .deferred body captured) ∈ scope.bindings →
        Env.Tidy captured) :
      Env.Tidy (.mk scope)

/-- A number, or a well-formed sequence with a tidy scope. -/
def Value.Tidy : Value Env → Prop
  | number _ => True
  | deferred body captured => (∀ x ∈ body, x.WellFormed) ∧ captured.Tidy

/-- A number, or a well-formed sequence, whatever its scope. -/
def Value.WellFormed : Value Env → Prop
  | number _ => True
  | deferred body _ => ∀ x ∈ body, x.WellFormed

/-- A scope is tidy if well-formedness of its values is handed down. -/
theorem Env.tidy_iff_hereditary {e : Env} : e.Tidy ↔ e.Hereditary Value.WellFormed := by
  constructor
  · intro h
    induction h with
    | mk bodies scopes ih =>
      refine .mk ?_ ih
      rintro ⟨name, v⟩ hb
      cases v with
      | number n => trivial
      | deferred body captured => exact bodies name body captured hb
  · intro h
    induction h with
    | mk values scopes ih => exact .mk (fun _ _ _ hb ↦ values _ hb) ih

theorem Env.tidy_empty (name : Bytes) : (Env.mk (Scope.empty name)).Tidy :=
  Env.tidy_iff_hereditary.2 (Env.hereditary_empty name)

theorem Env.Tidy.of_lookup {e : Env} {name : String} {v : Value Env} (he : e.Tidy)
    (h : e.lookup name = .ok v) : v.Tidy := by
  have hv := (Env.tidy_iff_hereditary.1 he).of_lookup h
  cases v with
  | number n => trivial
  | deferred body captured =>
    exact ⟨hv.good, Env.tidy_iff_hereditary.2 (hv.captured body captured rfl)⟩

/-! ### Arguments -/

/-- No operand of the sum is left blank. -/
def Arithmetic.Filled (a : Arithmetic) : Prop := ∀ t ∈ a.terms, t.operand ≠ .blank

instance (a : Arithmetic) : Decidable a.Filled :=
  inferInstanceAs (Decidable (∀ t ∈ a.terms, t.operand ≠ .blank))

theorem Arithmetic.WellFormed.filled {a : Arithmetic} (h : a.WellFormed) : a.Filled := by
  intro t ht hblank
  have hoperand := h.operands t ht
  rw [hblank] at hoperand
  exact hoperand

theorem Operand.value_ne_blank {e : Env} {o : Operand} (h : o ≠ .blank) :
    o.value e ≠ .error .blank := by
  cases o with
  | literal n => simp [value]
  | parameter name =>
    rw [value]
    rcases e.lookup name with failure | n | ⟨body, captured⟩ <;> simp
  | blank => exact absurd rfl h

/-- A sum without blanks has a value, unless one of its terms fails. -/
theorem Term.sum_ne_blank {e : Env} {terms : List Term} (h : ∀ t ∈ terms, t.operand ≠ .blank)
    (before : Int) : Term.sum e before terms ≠ .error .blank := by
  induction terms generalizing before with
  | nil => simp [Term.sum]
  | cons t terms ih =>
    obtain ⟨ht, hterms⟩ := List.forall_mem_cons.1 h
    have hblank := Operand.value_ne_blank (e := e) ht
    rw [Term.sum]
    rcases hvalue : t.operand.value e with cause | n
    · rw [hvalue] at hblank
      simpa using hblank
    · exact ih hterms _

theorem Argument.value_ne_blank {e : Env} {a : Argument}
    (ha : ∀ sum, a = .arithmetic sum → sum.Filled) : a.value e ≠ .error .blank := by
  cases a with
  | parameter name span =>
    simp only [Argument.value]
    rcases e.lookup name with failure | v <;> simp
  | quoted body span => simp [Argument.value]
  | arithmetic sum =>
    simp only [Argument.value]
    have hblank := Term.sum_ne_blank (e := e) (ha sum rfl) 0
    rcases hs : Term.sum e 0 sum.terms with cause | n
    · rw [hs] at hblank
      simpa using hblank
    · simp

theorem Argument.bindAll_ne_blank {e : Env} {names : List String} {args : List Argument}
    (hargs : ∀ sum, .arithmetic sum ∈ args → sum.Filled) (target : Scope Env) :
    Argument.bindAll e target names args ≠ .error .blank := by
  induction names generalizing args target with
  | nil => simp [Argument.bindAll]
  | cons name names ih =>
    rcases args with - | ⟨a, args⟩
    · simp [Argument.bindAll]
    · have hblank := Argument.value_ne_blank (e := e) (a := a)
        fun sum ha ↦ hargs sum (by simp [ha])
      rw [Argument.bindAll]
      rcases hv : a.value e with cause | v
      · rw [hv] at hblank
        simpa using hblank
      · simp only
        split
        · simp
        · exact ih (fun sum hmem ↦ hargs sum (List.mem_cons_of_mem _ hmem)) _

/-- A call binds well-formed arguments to a tidy scope. -/
theorem Argument.bindAll_tidy {e : Env} (he : e.Tidy) {names : List String} {args : List Argument}
    (hargs : ∀ a ∈ args, a.WellFormed) {callee : Bytes} {scope : Scope Env}
    (h : Argument.bindAll e (Scope.empty callee) names args = .ok (some scope)) :
    (Env.mk scope).Tidy := by
  refine Env.tidy_iff_hereditary.2 (Argument.bindAll_hereditary (Env.tidy_iff_hereditary.1 he)
    (fun _ _ ↦ trivial) ?_ (Env.hereditary_empty callee) h)
  intro body span hmem
  cases hargs _ hmem with
  | quoted _ _ hbody => exact hbody

/-! ### Machines -/

/-- What is left of a frame is well formed, and its scope is tidy. -/
def Frame.Tidy (f : Frame Env) : Prop := (∀ x ∈ f.rest, x.WellFormed) ∧ f.scope.Tidy

/-- What a well-formed element asks for is never out of reach, and if it asks for another frame then
for a tidy one. -/
theorem Frame.demand_tidy {p : Program} (hp : ∀ d ∈ p.definitions, d.WellFormed) {f : Frame Env}
    (hf : f.scope.Tidy) {x : Element} (hx : x.WellFormed) :
    f.demand p x ≠ .stick ∧ ∀ g, f.demand p x = .enter g → g.Tidy := by
  cases hx with
  | @command c span hc => simp [Frame.demand]
  | @parameter name span hname =>
    rw [Frame.demand]
    rcases hlookup : f.scope.lookup name with failure | n | ⟨body, captured⟩
    · simp
    · by_cases hsole : f.sole = true <;> simp [hsole]
    · refine ⟨by simp, fun g hg ↦ ?_⟩
      obtain rfl : Frame.enter name body captured = g := by simpa using hg
      exact hf.of_lookup hlookup
  | @call callee args span hcallee hargs =>
    rw [Frame.demand]
    rcases hfind : p.find? callee with - | d
    · simp
    · have hd : d.WellFormed := hp d (List.mem_of_find?_eq_some hfind)
      by_cases hlength : args.length = d.params.length
      · simp only [hlength, ne_eq, not_true_eq_false, if_false]
        rcases hbind : Argument.bindAll f.scope (Scope.empty (.ofString d.name)) d.params args with
          (failure | -) | (- | scope)
        · simp
        · refine absurd hbind (Argument.bindAll_ne_blank (fun sum hmem ↦ ?_) _)
          cases hargs _ hmem with
          | arithmetic hsum => exact hsum.filled
        · simp
        · refine ⟨by simp, fun g hg ↦ ?_⟩
          obtain rfl : Frame.enter d.name d.body (.mk scope) = g := by simpa using hg
          exact ⟨hd.body, Argument.bindAll_tidy hf hargs hbind⟩
      · simp [hlength]

namespace Machine

/-- All that the machine runs, now or later, is well formed. -/
structure Tidy (m : Machine) : Prop where
  definitions : ∀ d ∈ m.program.definitions, d.WellFormed
  frames : ∀ f ∈ m.stack.items, f.Tidy

variable {m m' : Machine}

theorem tidy_start {p : Program} (hp : p.WellFormed) (limits : Limits) : (start p limits).Tidy := by
  refine ⟨hp.definitions, fun f hf ↦ ?_⟩
  obtain rfl : f = Frame.enter "main" p.main (.mk Scope.globals) := by simpa [start] using hf
  exact ⟨hp.main, Env.tidy_empty _⟩

theorem Tidy.demand (hm : m.Tidy) :
    m.demand ≠ .stick ∧ ∀ g, m.demand = .enter g → g.Tidy := by
  rcases hitems : m.stack.items with - | ⟨f, below⟩
  · simp [demand_of_nil hitems]
  · have hf : f.Tidy := hm.frames f (by simp [hitems])
    rcases hrest : f.rest with - | ⟨x, rest⟩
    · simp [demand_of_exhausted hitems hrest]
    · rw [demand_of_cons hitems hrest]
      refine Frame.demand_tidy hm.definitions ?_ (hf.1 x (by simp [hrest]))
      exact hf.2

theorem Tidy.moved (hm : m.Tidy) : m.moved.Tidy := by
  refine ⟨by rw [moved_program]; exact hm.definitions, ?_⟩
  rcases hitems : m.stack.items with - | ⟨f, below⟩
  · rw [moved_of_nil hitems, hitems]
    simp
  · obtain ⟨hf, hbelow⟩ := List.forall_mem_cons.1 (hitems ▸ hm.frames)
    rcases hrest : f.rest with - | ⟨x, rest⟩
    · rw [items_moved_of_exhausted hitems hrest]
      exact hbelow
    · rw [items_moved_of_cons hitems hrest]
      refine List.forall_mem_cons.2 ⟨⟨?_, hf.2⟩, hbelow⟩
      exact (List.forall_mem_cons.1 (hrest ▸ hf.1)).2

theorem Tidy.entered (hm : m.Tidy) {f : Frame Env} (hf : f.Tidy) : (m.entered f).Tidy :=
  ⟨hm.definitions, List.forall_mem_cons.2
    ⟨hf, fun _ hg ↦ hm.frames _ (mem_of_mem_dropExhausted hg)⟩⟩

theorem Tidy.of_quiet (hm : m.Tidy) (h : m.step = .quiet m') : m'.Tidy := by
  rcases quiet_cases h with ⟨-, rfl⟩ | ⟨-, rfl⟩ | ⟨f, hd, -, -, rfl⟩
  · exact hm.moved
  · exact hm.moved
  · exact hm.moved.entered (hm.demand.2 f hd)

end Machine

end RobotGolf
