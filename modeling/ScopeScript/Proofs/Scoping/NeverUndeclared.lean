import ScopeScript.Proofs.Scoping.WellScoped
import ScopeScript.Proofs.Run
import ScopeScript.Proofs.Eval.Carried
import ScopeScript.Proofs.Heap.Released
import ScopeScript.Script

/-!
# Closed programs never miss a name

A run that starts in a well-scoped store, with code that uses visible names only, is `Safe`: it
leaves a well-scoped store that has grown, it ends in a well-scoped value, and if it is stopped then
not for an undeclared name.  This holds step by step for expressions, statements and calls, and
for calls of any depth by induction on the depth.

    expr_safe       e.closedIn names, all names seen → Safe … (expr calls opts scope e) m
    function_safe   the frame of a call sees the parameters and what the declaration saw

On a heap, where frames are cleared and freed at the end of calls, a program ends as it does on a
machine, so that it misses no name there either.
-/

namespace ScopeScript.Eval

variable {α β : Type}

/-- The run leaves a well-scoped store that has grown and a result as `V` says, or is stopped for
another reason than an undeclared name. -/
def Safe (base : ScopeId) (V : α → Store → Prop) (c : Eval α) (m : Machine) : Prop :=
  Ensures c m (fun a m' => m'.store.WellScoped base ∧ m.store.Grows m'.store ∧ V a m'.store)
    (fun h _ => ∀ name line, h ≠ .fault ⟨.undeclared name, line⟩)

/-- A well-scoped result. -/
abbrev SafeValue (base : ScopeId) (c : Eval Value) (m : Machine) : Prop :=
  Safe base (fun v s => v.WellScoped s base) c m

namespace Safe

variable {base : ScopeId} {m : Machine}

theorem bind {V : α → Store → Prop} {W : β → Store → Prop} {c : Eval α} {f : α → Eval β}
    (h : Safe base V c m)
    (hf : ∀ a m', m'.store.WellScoped base → m.store.Grows m'.store → V a m'.store →
      Safe base W (f a) m') : Safe base W (c >>= f) m := by
  refine Ensures.bind (h.mono ?_ fun _ _ he => he)
  rintro a m' ⟨hw, hg, hv⟩
  refine (hf a m' hw hg hv).mono ?_ fun _ _ he => he
  rintro b m'' ⟨hw', hg', hv'⟩
  exact ⟨hw', hg.trans hg', hv'⟩

theorem pure {V : α → Store → Prop} {a : α} (hw : m.store.WellScoped base)
    (h : V a m.store) : Safe base V (Pure.pure a) m :=
  ensures_pure ⟨hw, .refl m.store, h⟩

theorem fault {V : α → Store → Prop} {cause : FaultCause} {line : Nat}
    (h : ∀ name, cause ≠ .undeclared name) : Safe base V (fault cause line) m :=
  ensures_fault fun name line' he => by
    cases he
    exact h name rfl

end Safe

/-! ## Steps -/

section Steps

variable {base scope : ScopeId} {m : Machine}

theorem lookup_safe (hw : m.store.WellScoped base) (hs : base ≤ scope) {name : String}
    (hn : m.store.Sees scope name) (line : Nat) : SafeValue base (lookup scope name line) m := by
  obtain ⟨v, hv, hvw⟩ := hw.lookup hs hn
  unfold SafeValue Safe Ensures
  rw [lookup_apply, hv]
  exact ⟨hw, .refl m.store, hvw⟩

theorem assign_safe (hw : m.store.WellScoped base) {name : String}
    (hn : m.store.Sees scope name) {v : Value} (hv : v.WellScoped m.store base) (line : Nat) :
    Safe base (fun _ _ => True) (assign scope name v line) m := by
  unfold Safe Ensures
  rw [assign_apply]
  cases h : m.store.assign scope name v with
  | error e =>
    obtain ⟨j, -, b, -, ho, hf⟩ := hn.resolve
    unfold Store.assign at h
    rw [ho] at h
    dsimp only at h
    split at h
    · cases h
      rintro name' line' ⟨⟩
    · cases h
  | ok t =>
    obtain ⟨j, -, hc, rfl⟩ := Store.assign_eq_ok h
    have hg : m.store.Grows (m.store.modifyScope j (·.replace name v)) :=
      .of_kept (.modifyScope _ m.store j _ fun _ => Scope.extends_replace _ name v hc)
    refine ⟨hw.modifyScope hg (fun _ => rfl) fun a b hb => ?_, hg, trivial⟩
    obtain ⟨b', hb', rfl⟩ := List.mem_map.1 hb
    split
    · exact .inr (hv.mono hg)
    · exact .inl (List.mem_map_of_mem hb')

/-- A declaration in an existing scope makes its name visible there. -/
theorem declare_safe (hw : m.store.WellScoped base) (hs : scope < m.store.scopes.size)
    (name : String) {v : Value} {constant : Bool} (line : Nat)
    (hv : ∀ t, m.store.declare scope name v constant = .ok t → m.store.Grows t →
      t.Sees scope name → v.WellScoped t base) :
    Safe base (fun _ t => t.Sees scope name ∧ v.WellScoped t base)
      (declare scope name v constant line) m := by
  unfold Safe Ensures
  rw [declare_apply]
  cases h : m.store.declare scope name v constant with
  | error e =>
    cases Store.declare_eq_error h
    rintro name' line' ⟨⟩
  | ok t =>
    have hg : m.store.Grows t := .of_extends (.of_declare h)
    obtain ⟨hb, rfl⟩ := Store.declare_eq_ok_iff.1 h
    have hsees : (m.store.modifyScope scope (·.bind ⟨name, v, constant⟩)).Sees scope name := by
      refine .of_hasOwn ?_
      unfold Store.hasOwn
      rw [Store.scope_modifyScope_self _ _ hs]
      simp [Scope.bind, Scope.binds]
    have hvt := hv _ h hg hsees
    refine ⟨hw.modifyScope hg (fun _ => rfl) fun a b hb' => ?_, hg, hsees, hvt⟩
    rcases List.mem_cons.1 hb' with rfl | hb'
    · exact .inr hvt
    · exact .inl (List.mem_map_of_mem hb')

/-- A new frame sees everything that its parent sees. -/
theorem child_safe (hw : m.store.WellScoped base) {parent : ScopeId} (hp : base ≤ parent) :
    Safe base (fun frame t => base ≤ frame ∧ frame < t.scopes.size ∧
      ∀ name, m.store.Sees parent name → t.Sees frame name) (child parent) m := by
  unfold Safe Ensures
  rw [child_apply]
  have hg : m.store.Grows (m.store.pushChild parent) :=
    .of_kept (.push m.store _ (Nat.le_refl _))
  refine ⟨hw.pushChild hp, hg, hw.base_le, ?_, fun name h => ?_⟩
  · show m.store.scopes.size < (m.store.push _).scopes.size
    rw [Store.size_push]
    exact Nat.lt_succ_self _
  · obtain ⟨j, hj, hb⟩ := h
    refine ⟨j, ?_, hg.binds hb⟩
    show j ∈ m.store.scopes.size :: ((m.store.push _).scope m.store.scopes.size).ancestors
    rw [Store.scope_push_self]
    exact List.mem_cons_of_mem _ hj

theorem freshIdentity_safe (hw : m.store.WellScoped base) :
    Safe base (fun _ _ => True) freshIdentity m := by
  have hg : m.store.Grows { m.store with issued := m.store.issued + 1 } :=
    ⟨Nat.le_refl _, fun i _ => ⟨[], .refl (m.store.scope i)⟩⟩
  exact ⟨⟨hw.base_le, hw.ancestors, fun i hi b hb => (hw.values i hi b hb).mono hg⟩, hg, trivial⟩

end Steps

/-! ## Expressions -/

/-- However calls are made, a call of a well-scoped value with well-scoped arguments is safe. -/
structure CallsSafe (base : ScopeId) (c : Calls) : Prop where
  function : ∀ opts f arguments line m, m.store.WellScoped base → f.WellScoped m.store base →
    (∀ v ∈ arguments, v.WellScoped m.store base) →
    SafeValue base (c.function opts f arguments line) m
  native : ∀ op arguments scope m, m.store.WellScoped base → (∀ key, op ≠ .hosted key) →
    Safe base (fun r s => ∀ v, r = .ok v → v.WellScoped s base) (c.native op arguments scope) m

/-- Expressions that use no other names. -/
def closedIn (names : List String) : Code where
  expr e := e.closedIn names = true
  field p := p.closedIn names = true

theorem closedIn_inherits (names : List String) : (closedIn names).InheritsExpr where
  binary he := ⟨(Bool.and_eq_true_iff.1 he).1, (Bool.and_eq_true_iff.1 he).2, trivial⟩
  assign {t e line} he := by
    refine ⟨?_, trivial⟩
    cases t with
    | name name k => exact (Bool.and_eq_true_iff.1 he).2
    | _ => exact he
  call he := ⟨Expr.allClosedIn_iff.1 (Bool.and_eq_true_iff.1 he).2, (Bool.and_eq_true_iff.1 he).1,
    trivial⟩
  dot he := ⟨he, trivial, .inr ⟨trivial, trivial⟩⟩
  index he := ⟨(Bool.and_eq_true_iff.1 he).1, (Bool.and_eq_true_iff.1 he).2, trivial⟩
  object he := Property.allClosedIn_iff.1 he
  field he := he

section Expressions

variable {base : ScopeId} {c : Calls} {opts : Options} {scope : ScopeId} {names : List String}

/-- What can be used in an expression: the scope sees all of `names`. -/
def SeesAll (s : Store) (scope : ScopeId) (names : List String) : Prop :=
  ∀ x ∈ names, s.Sees scope x

theorem SeesAll.mono {s t : Store} (h : SeesAll s scope names) (hg : s.Grows t) :
    SeesAll t scope names :=
  fun x hx => (h x hx).mono hg

/-- Runs in a scope that sees all of `names`; what is known of a machine is its store. -/
def seeing (base scope : ScopeId) (names : List String) : Invariant Machine where
  World := Store
  Leads := Store.Grows
  Fits s v := v.WellScoped s base
  Runs s V c := ∀ m : Machine, m.store = s → s.WellScoped base → SeesAll s scope names →
    Safe base (fun a t => V t a) c m

theorem CallsSafe.carries (h : CallsSafe base c) (hs : base ≤ scope) :
    Carries (seeing base scope names) c opts scope (closedIn names) where
  pure := by
    rintro _ _ _ _ ha m rfl hw -
    exact .pure hw ha
  bind hc hf m hm hw hn := (hc m hm hw hn).bind fun a m' hw' hg ha => by
    subst hm
    exact hf m'.store a hg ha m' rfl hw' (hn.mono hg)
  fault _ hcause _ _ _ _ _ := .fault hcause
  mono hg hv := hv.mono hg
  null := trivial
  number _ := trivial
  string _ := trivial
  get key ho := Value.wellScoped_get ho key
  ofList := Value.wellScoped_ofList
  lookup := by
    rintro _ name line he m rfl hw hn
    exact lookup_safe hw hs (hn name (List.contains_iff_mem.1 he)) line
  shorthand := by
    rintro _ key line he m rfl hw hn
    exact lookup_safe hw hs (hn key (List.contains_iff_mem.1 he)) line
  assign := by
    rintro _ name _ e line v he hv m rfl hw hn
    exact assign_safe hw (hn name (List.contains_iff_mem.1 (Bool.and_eq_true_iff.1 he).1)) hv line
  function := by
    rintro _ f vs line - hf hvs m rfl hw -
    exact h.function opts f vs line m hw hf hvs
  native := by
    rintro _ n vs hn - m rfl hw -
    exact h.native n.op vs scope m hw hn

theorem expr_safe (h : CallsSafe base c) (hs : base ≤ scope) {e : Expr}
    (he : e.closedIn names = true) {m : Machine} (hw : m.store.WellScoped base)
    (hn : SeesAll m.store scope names) : SafeValue base (expr c opts scope e) m :=
  expr_carried (h.carries hs) (closedIn_inherits names) e he m rfl hw hn

end Expressions

/-! ## Statements -/

section Statements

variable {base : ScopeId} {c : Calls} {opts : Options} {scope : ScopeId}

/-- What a statement declares is visible after it. -/
theorem stmt_safe (h : CallsSafe base c) (hs : base ≤ scope) {names : List String} {s : Stmt}
    (hc : s.closedIn names = true) {m : Machine} (hw : m.store.WellScoped base)
    (hn : SeesAll m.store scope names) (hlt : scope < m.store.scopes.size) :
    Safe base (fun v t => v.WellScoped t base ∧ ∀ x ∈ s.declared.map (·.1), t.Sees scope x)
      (stmt c opts scope s) m := by
  cases s with
  | expr e line =>
    refine (expr_safe h hs (e := e) hc hw hn).mono ?_ fun _ _ he => he
    rintro v m' ⟨hw', hg, hv⟩
    exact ⟨hw', hg, hv, fun x hx => nomatch hx⟩
  | declare name constant value line =>
    have hdecl {v : Value} {m₁ : Machine} (hw₁ : m₁.store.WellScoped base)
        (hg₁ : m.store.Grows m₁.store) (hv : v.WellScoped m₁.store base) :
        Safe base (fun w t => w.WellScoped t base ∧ ∀ x ∈ [name], t.Sees scope x)
          (do
            Eval.declare scope name v constant line
            return v) m₁ := by
      refine (declare_safe hw₁ (Nat.lt_of_lt_of_le hlt hg₁.size_le) name line
        fun t _ hg _ => hv.mono hg).bind fun _ m₂ hw₂ _ hx => ?_
      refine .pure hw₂ ⟨hx.2, fun x hmem => ?_⟩
      rw [List.mem_singleton.1 hmem]
      exact hx.1
    cases value with
    | none => exact hdecl hw (.refl m.store) trivial
    | some e =>
      exact (expr_safe h hs (e := e) hc hw hn).bind fun v m₁ hw₁ hg₁ hv => hdecl hw₁ hg₁ hv
  | function name params body line =>
    refine (freshIdentity_safe hw).bind fun identity m₁ hw₁ hg₁ _ => ?_
    refine (declare_safe hw₁ (Nat.lt_of_lt_of_le hlt hg₁.size_le) name line
      fun t _ hg hname => ?_).bind fun _ m₂ hw₂ _ hx => ?_
    · -- the names of the body: its parameters, the function itself, and what was visible before
      refine ⟨hs, params ++ name :: names, hc, fun x hx => ?_⟩
      rcases List.mem_append.1 hx with hp | hx
      · exact .inl hp
      · rcases List.mem_cons.1 hx with rfl | hx
        · exact .inr hname
        · exact .inr ((hn x hx).mono (hg₁.trans hg))
    · refine .pure hw₂ ⟨trivial, fun x hmem => ?_⟩
      rw [List.mem_singleton.1 hmem]
      exact hx.1

theorem stmts_safe (h : CallsSafe base c) (hs : base ≤ scope) {names : List String}
    {ss : List Stmt} (hc : Stmt.allClosedIn names ss = true) {m : Machine}
    (hw : m.store.WellScoped base) (hn : SeesAll m.store scope names)
    (hlt : scope < m.store.scopes.size) {last : Value} (hl : last.WellScoped m.store base) :
    SafeValue base (stmts c opts scope last ss) m := by
  induction ss generalizing names last m with
  | nil => exact .pure hw hl
  | cons s ss ih =>
    obtain ⟨hc₁, hc₂⟩ := Bool.and_eq_true_iff.1 hc
    refine (stmt_safe h hs hc₁ hw hn hlt).bind fun v m₁ hw₁ hg₁ hv => ?_
    have hn₁ : SeesAll m₁.store scope (s.declared.map (·.1) ++ names) := by
      intro x hx
      rcases List.mem_append.1 hx with hx | hx
      · exact hv.2 x hx
      · exact (hn x hx).mono hg₁
    exact ih hc₂ hw₁ hn₁ (Nat.lt_of_lt_of_le hlt hg₁.size_le) hv.1

/-! ## Calls -/

/-- A frame sees its parameters once they are bound. -/
theorem bindParams_safe {frame : ScopeId} (line : Nat) (params : List String) {m : Machine}
    (hw : m.store.WellScoped base) (hlt : frame < m.store.scopes.size) {arguments : List Value}
    (ha : ∀ v ∈ arguments, v.WellScoped m.store base) :
    Safe base (fun _ t => ∀ x ∈ params, t.Sees frame x) (bindParams frame line params arguments)
      m := by
  induction params generalizing m arguments with
  | nil => exact .pure hw fun _ => nofun
  | cons p ps ih =>
    have hhead : (arguments.headD .null).WellScoped m.store base := by
      cases arguments with
      | nil => trivial
      | cons v vs => exact ha v List.mem_cons_self
    refine (declare_safe hw hlt p line fun t _ hg _ => hhead.mono hg).bind
      fun _ m₁ hw₁ hg₁ hx => ?_
    have htail : ∀ v ∈ arguments.tail, v.WellScoped m₁.store base :=
      fun v hv => (ha v (List.mem_of_mem_tail hv)).mono hg₁
    have hrest := ih hw₁ (Nat.lt_of_lt_of_le hlt hg₁.size_le) htail
    refine hrest.mono ?_ fun _ _ he => he
    rintro _ m₂ ⟨hw₂, hg₂, hps⟩
    refine ⟨hw₂, hg₂, fun x hmem => ?_⟩
    rcases List.mem_cons.1 hmem with rfl | hmem
    · exact hx.1.mono hg₂
    · exact hps x hmem

theorem function_safe (h : CallsSafe base c) {f : Closure} {arguments : List Value} {line : Nat}
    {m : Machine} (hw : m.store.WellScoped base) (hf : f.WellScoped m.store base)
    (ha : ∀ v ∈ arguments, v.WellScoped m.store base) :
    SafeValue base (Eval.function c opts f arguments line) m := by
  obtain ⟨hb, names, hc, hn⟩ := hf
  refine (child_safe hw hb).bind fun frame m₁ hw₁ hg₁ ⟨hframe, hlt, hsees⟩ => ?_
  refine (bindParams_safe line f.params hw₁ hlt fun v hv => (ha v hv).mono hg₁).bind
    fun _ m₂ hw₂ hg₂ hparams => ?_
  have hn₂ : SeesAll m₂.store frame names := by
    intro x hx
    rcases hn x hx with hp | hx
    · exact hparams x hp
    · exact (hsees x hx).mono hg₂
  exact stmts_safe h hframe hc hw₂ hn₂ (Nat.lt_of_lt_of_le hlt hg₂.size_le) trivial

end Statements

/-- Calls of any depth are safe, whatever the functions of the host do: a well-scoped store has no
value that leads to one. -/
theorem callsWithin_safe (host : Host) (base : ScopeId) (n : Nat) :
    CallsSafe base (callsWithin host n) := by
  induction n with
  | zero =>
    exact ⟨fun _ _ _ _ _ _ _ _ => ensures_throw fun _ _ => nofun,
      fun _ _ _ _ _ _ => ensures_throw fun _ _ => nofun⟩
  | succ n ih =>
    refine ⟨fun opts f arguments line m hw hf ha => function_safe ih hw hf ha,
      fun op arguments scope m hw hop => ?_⟩
    cases op with
    | print =>
      refine ⟨hw, .refl m.store, ?_⟩
      rintro v ⟨⟩
      trivial
    | typeOf =>
      refine ⟨hw, .refl m.store, fun v hv => ?_⟩
      obtain ⟨s, rfl⟩ := NativeOp.typeName_eq_ok hv
      trivial
    | hosted key => exact absurd rfl (hop key)

end ScopeScript.Eval

namespace ScopeScript

/-! ## Programs -/

namespace Store

theorem pushGlobal_wellScoped (s : Store) : s.pushGlobal.WellScoped s.scopes.size := by
  have hlast {i : ScopeId} (hi : s.scopes.size ≤ i) :
      i = s.scopes.size ∨ s.pushGlobal.scope i = {} := by
    rcases Nat.eq_or_lt_of_le hi with rfl | hi
    · exact .inl rfl
    · exact .inr (scope_of_size_le _ (s.size_pushGlobal ▸ hi))
  refine ⟨s.size_pushGlobal ▸ Nat.le_succ _, fun i hi j hj => ?_, fun i hi b hb => ?_⟩
  · rcases hlast hi with rfl | he
    · rw [scope_pushGlobal] at hj
      cases hj
    · rw [he] at hj
      cases hj
  · rcases hlast hi with rfl | he
    · rw [scope_pushGlobal] at hb
      exact forall_globalBindings trivial (fun _ => trivial) (fun _ hop => hop) _ b hb
    · rw [he] at hb
      cases hb

theorem pushGlobal_sees (s : Store) {name : String} (h : name ∈ builtinNames) :
    s.pushGlobal.Sees s.scopes.size name := by
  refine .of_hasOwn ?_
  unfold hasOwn
  rw [scope_pushGlobal]
  simp only [builtinNames, List.mem_cons, List.not_mem_nil, or_false] at h
  rcases h with rfl | rfl | rfl | rfl | rfl <;> rfl

end Store

theorem Program.LexicallyClosed.run_ne_undeclared {program : Program}
    (h : program.LexicallyClosed) (setting : Setting) (name : String) (line : Nat)
    (m m' : Machine) :
    program.run setting m.store.scopes.size { m with store := m.store.pushGlobal } ≠
      .error (.fault ⟨.undeclared name, line⟩) m' := by
  have hsafe : Eval.SafeValue m.store.scopes.size
      (program.run setting m.store.scopes.size) { m with store := m.store.pushGlobal } := by
    refine Eval.stmts_safe (Eval.callsWithin_safe setting.host m.store.scopes.size setting.depth)
      (Nat.le_refl _) h m.store.pushGlobal_wellScoped (fun x hx => m.store.pushGlobal_sees hx)
      ?_ trivial
    show m.store.scopes.size < (m.store.push _).scopes.size
    rw [Store.size_push]
    exact Nat.lt_succ_self _
  intro he
  exact hsafe.of_error he name line rfl

/-- The heap gives up frames, but none that is still missed. -/
theorem Program.LexicallyClosed.run_heap_ne_undeclared {program : Program}
    (h : program.LexicallyClosed) (setting : SettingIn Heap) (name : String) (line : Nat)
    (heap heap' : Heap) :
    program.run setting heap.cells.size heap.pushGlobal ≠
      .error (.fault ⟨.undeclared name, line⟩) heap' := by
  intro he
  let setting' : Setting := { depth := setting.depth, options := setting.options }
  have hsame := program.run_remembered setting setting' rfl rfl heap
  have hsize : (Machine.blank heap).store.scopes.size = heap.cells.size := by
    simp [Machine.blank]
  have hmachine := h.run_ne_undeclared setting' name line (Machine.blank heap)
  rw [hsize] at hmachine
  rw [he] at hsame
  unfold Machine.global at hsame
  generalize program.run setting' heap.cells.size _ = r at hsame hmachine
  cases hsame
  exact hmachine _ rfl

theorem Script.runIn_eq_failed {σ : Type} [HasScopes σ] {setting : SettingIn σ} {source : String}
    {program : Program} (hsource : Program.ofText source = .ok program) {scope : ScopeId} {m : σ}
    {f : Fault} (h : (runIn setting source scope m).1 = .failed (.fault f)) :
    ∃ m', program.run setting scope m = .error (.fault f) m' := by
  unfold runIn at h
  simp only [hsource] at h
  unfold EvalIn.finish EStateM.run at h
  split at h
  · cases h
  · next f' m₁ hf =>
    cases h
    exact ⟨m₁, hf⟩
  · cases h

/-- A lexically closed program that runs in a new global scope is never stopped for an undeclared
name, whatever the machine holds besides, under either options and to any depth of calls; nor is
the script that spells it.  This is so on machines, which keep every frame, and on heaps, where
frames are cleared and freed when their calls are over. -/
theorem Program.LexicallyClosed.never_undeclared {program : Program}
    (h : program.LexicallyClosed) (name : String) (line : Nat) :
    (∀ (setting : Setting) (m m' : Machine),
      program.run setting m.store.scopes.size { m with store := m.store.pushGlobal } ≠
        .error (.fault ⟨.undeclared name, line⟩) m') ∧
    (∀ (setting : SettingIn Heap) (heap heap' : Heap),
      program.run setting heap.cells.size heap.pushGlobal ≠
        .error (.fault ⟨.undeclared name, line⟩) heap') ∧
    ∀ source, Program.ofText source = .ok program →
      (∀ setting, (Script.run setting source).1 ≠ .failed (.fault ⟨.undeclared name, line⟩)) ∧
      ∀ (setting : SettingIn Heap) (heap : Heap),
        (Script.runIn setting source heap.cells.size heap.pushGlobal).1 ≠
          .failed (.fault ⟨.undeclared name, line⟩) := by
  refine ⟨fun setting => h.run_ne_undeclared setting name line,
    fun setting => h.run_heap_ne_undeclared setting name line,
    fun source hsource => ⟨fun setting he => ?_, fun setting heap he => ?_⟩⟩
  · obtain ⟨m', hm'⟩ := Script.runIn_eq_failed hsource he
    exact h.run_ne_undeclared setting name line {} m' hm'
  · obtain ⟨heap', hheap'⟩ := Script.runIn_eq_failed hsource he
    exact h.run_heap_ne_undeclared setting name line heap heap' hheap'

/-- A function that is called once the call that made it is over. -/
def keptFunction : Program :=
  [.function "make" ["x"]
      [.function "inner" [] [.expr (.name "x" 1) 1] 1, .expr (.name "inner" 1) 1] 1,
    .expr (.call (.call (.name "make" 1) [.string "a" 1] 1) [] 1) 1]

def keptFunctionText : String :=
  "fn make(x) \x7b fn inner() \x7b x \x7d inner \x7d make(\"a\")()"

def keptFunctionTokens : List Token :=
  [⟨.fnKeyword, "fn", 1⟩, ⟨.identifier, "make", 1⟩, ⟨.leftParen, "(", 1⟩, ⟨.identifier, "x", 1⟩,
    ⟨.rightParen, ")", 1⟩, ⟨.leftBrace, "\x7b", 1⟩, ⟨.fnKeyword, "fn", 1⟩,
    ⟨.identifier, "inner", 1⟩, ⟨.leftParen, "(", 1⟩, ⟨.rightParen, ")", 1⟩,
    ⟨.leftBrace, "\x7b", 1⟩, ⟨.identifier, "x", 1⟩, ⟨.rightBrace, "\x7d", 1⟩,
    ⟨.identifier, "inner", 1⟩, ⟨.rightBrace, "\x7d", 1⟩, ⟨.identifier, "make", 1⟩,
    ⟨.leftParen, "(", 1⟩, ⟨.string, "a", 1⟩, ⟨.rightParen, ")", 1⟩, ⟨.leftParen, "(", 1⟩,
    ⟨.rightParen, ")", 1⟩, Token.endAt 1]

theorem keptFunction_never_undeclared :
    keptFunction.LexicallyClosed ∧ Program.ofText keptFunctionText = .ok keptFunction ∧
      (((keptFunction.run { depth := 2 } 0).finish ({} : Heap).pushGlobal).1 matches
        .value (.string "a")) ∧
      ∀ name line,
        (Script.run {} keptFunctionText).1 ≠ .failed (.fault ⟨.undeclared name, line⟩) ∧
        ∀ heap', keptFunction.run { options := { lenient := true } } 0 ({} : Heap).pushGlobal ≠
          .error (.fault ⟨.undeclared name, line⟩) heap' := by
  have hclosed : keptFunction.LexicallyClosed := by
    unfold Program.LexicallyClosed
    decide
  have htext : Program.ofText keptFunctionText = .ok keptFunction := by
    have htokens : Token.tokensOf keptFunctionText = .ok keptFunctionTokens := by decide +kernel
    exact Program.ofText_eq_ok htokens rfl
  refine ⟨hclosed, htext, by decide +kernel, fun name line => ?_⟩
  obtain ⟨-, hheap, hscript⟩ := Program.LexicallyClosed.never_undeclared hclosed name line
  exact ⟨(hscript _ htext).1 {}, hheap { options := { lenient := true } } {}⟩

end ScopeScript
