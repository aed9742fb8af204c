import ScopeScript.Proofs.Run
import ScopeScript.Proofs.Separation.Stores

/-!
# Evaluation up to a renaming of scopes

`Mirrors w inside V c d m m'` says that two computations on machines whose stores are renamed by `w`
stay in step: both end, with results that `V` relates, or both are stopped with the same error; they
print the same, change no scopes but those that `w` pairs, and leave renamed stores.  The renaming
grows by what they make.

    expr_mirrors       the same expression in scopes that w pairs
    function_mirrors   the same function; its frames are paired when they are made
    callsWithin_mirror calls of any depth, by induction on the depth

In a hidden scope a program reads and writes like in any other, but it must not declare functions
there, since they lead to the scope.
-/

namespace ScopeScript

/-- A declaration of a function leads to the scope that it is evaluated in. -/
def Stmt.isFunction : Stmt → Bool
  | .function _ _ _ _ => true
  | _ => false

namespace Eval

variable {α β γ δ : Type}

/-- Two machines after a step that printed the same on both. -/
structure Moves (w : Renaming) (inside : Prop) (m m' : Machine) (w' : Renaming) (n n' : Machine) :
    Prop where
  stores : Store.Moves w inside m.store m'.store w' n.store n'.store
  printed : ∃ texts, n.output = m.output ++ texts ∧ n'.output = m'.output ++ texts

/-- Two computations that stay in step. -/
def Mirrors (w : Renaming) (inside : Prop) (V : Renaming → α → γ → Prop) (c : Eval α) (d : Eval γ)
    (m m' : Machine) : Prop :=
  match c m, d m' with
  | .ok a n, .ok b n' => ∃ w', Moves w inside m m' w' n n' ∧ V w' a b
  | .error e n, .error e' n' => e = e' ∧ ∃ w', Moves w inside m m' w' n n'
  | _, _ => False

namespace Moves

variable {w w' w'' : Renaming} {inside : Prop} {m m' n n' k k' : Machine}

theorem of_stores {s s' : Store}
    (h : Store.Moves w inside m.store m'.store w' s s') :
    Moves w inside m m' w' { m with store := s } { m' with store := s' } :=
  ⟨h, #[], by simp⟩

theorem refl (h : m.store.Renamed w m'.store) : Moves w inside m m' w m m' := of_stores (.refl h)

theorem trans (h : Moves w inside m m' w' n n') (h' : Moves w' inside n n' w'' k k') :
    Moves w inside m m' w'' k k' := by
  obtain ⟨texts, ht, ht'⟩ := h.printed
  obtain ⟨more, hm, hm'⟩ := h'.printed
  exact ⟨h.stores.trans h'.stores, texts ++ more, by simp [hm, ht], by simp [hm', ht']⟩

end Moves

namespace Mirrors

section Rules

variable {w w' : Renaming} {inside : Prop} {V : Renaming → α → γ → Prop}
  {W : Renaming → β → δ → Prop} {c : Eval α} {d : Eval γ} {m m' n n' : Machine}

theorem of_ok {a : α} {b : γ} (hc : c m = .ok a n) (hd : d m' = .ok b n')
    (hmoves : Moves w inside m m' w' n n') (hv : V w' a b) : Mirrors w inside V c d m m' := by
  unfold Mirrors
  rw [hc, hd]
  exact ⟨w', hmoves, hv⟩

theorem of_error {e : Halt} (hc : c m = .error e n) (hd : d m' = .error e n')
    (hmoves : Moves w inside m m' w' n n') : Mirrors w inside V c d m m' := by
  unfold Mirrors
  rw [hc, hd]
  exact ⟨rfl, w', hmoves⟩

/-- How computations that stay in step end. -/
theorem ends (h : Mirrors w inside V c d m m') :
    (∃ a n b n' w', c m = .ok a n ∧ d m' = .ok b n' ∧ Moves w inside m m' w' n n' ∧ V w' a b) ∨
      ∃ e n n' w', c m = .error e n ∧ d m' = .error e n' ∧ Moves w inside m m' w' n n' := by
  unfold Mirrors at h
  split at h
  · next hc hd =>
    obtain ⟨w', hmoves, hv⟩ := h
    exact .inl ⟨_, _, _, _, w', hc, hd, hmoves, hv⟩
  · next hc hd =>
    obtain ⟨rfl, w', hmoves⟩ := h
    exact .inr ⟨_, _, _, w', hc, hd, hmoves⟩
  · exact h.elim

theorem bind {f : α → Eval β} {g : γ → Eval δ} (h : Mirrors w inside V c d m m')
    (hf : ∀ w' a b n n', Moves w inside m m' w' n n' → V w' a b →
      Mirrors w' inside W (f a) (g b) n n') : Mirrors w inside W (c >>= f) (d >>= g) m m' := by
  rcases h.ends with ⟨a, n, b, n', w₁, hc, hd, hmoves, hv⟩ | ⟨e, n, n', w₁, hc, hd, hmoves⟩
  · have hleft : (c >>= f) m = f a n := by rw [bind_apply, hc]
    have hright : (d >>= g) m' = g b n' := by rw [bind_apply, hd]
    rcases (hf w₁ a b n n' hmoves hv).ends with
      ⟨x, k, y, k', w₂, hfa, hgb, hmoves', hw⟩ | ⟨e, k, k', w₂, hfa, hgb, hmoves'⟩
    · exact .of_ok (hleft.trans hfa) (hright.trans hgb) (hmoves.trans hmoves') hw
    · exact .of_error (hleft.trans hfa) (hright.trans hgb) (hmoves.trans hmoves')
  · have hleft : (c >>= f) m = .error e n := by rw [bind_apply, hc]
    have hright : (d >>= g) m' = .error e n' := by rw [bind_apply, hd]
    exact .of_error hleft hright hmoves

/-- What is done outside the hidden scopes can also be done from inside. -/
theorem enter (h : Mirrors w False V c d m m') (inside : Prop) : Mirrors w inside V c d m m' := by
  rcases h.ends with ⟨a, n, b, n', w₁, hc, hd, hmoves, hv⟩ | ⟨e, n, n', w₁, hc, hd, hmoves⟩
  · exact .of_ok hc hd ⟨hmoves.stores.enter inside, hmoves.printed⟩ hv
  · exact .of_error hc hd ⟨hmoves.stores.enter inside, hmoves.printed⟩

theorem pure (hs : m.store.Renamed w m'.store) {a : α} {b : γ} (h : V w a b) :
    Mirrors w inside V (Pure.pure a) (Pure.pure b) m m' :=
  ⟨w, .refl hs, h⟩

theorem throw (hs : m.store.Renamed w m'.store) (e : Halt) :
    Mirrors w inside V (throw e) (throw e) m m' :=
  ⟨rfl, w, .refl hs⟩

theorem fault (hs : m.store.Renamed w m'.store) (cause : FaultCause) (line : Nat) :
    Mirrors w inside V (fault cause line) (fault cause line) m m' :=
  .throw hs _

end Rules

end Mirrors

/-! ## Steps -/

/-- The machines run in the scopes `p` and `p'`. -/
structure Running (hidden : Option (ScopeId × ScopeId)) (inside : Prop) (p p' : ScopeId)
    (w : Renaming) (m m' : Machine) : Prop where
  hidden : w.hidden = hidden
  place : w.within inside p p'
  stores : m.store.Renamed w m'.store

section Steps

variable {hidden : Option (ScopeId × ScopeId)} {inside : Prop} {p p' : ScopeId} {w w' : Renaming}
  {m m' n n' : Machine}

theorem Running.after (h : Running hidden inside p p' w m m') (hm : Moves w inside m m' w' n n') :
    Running hidden inside p p' w' n n' where
  hidden := hm.stores.hidden.trans h.hidden
  place := h.place.imp (hm.stores.le.1 p p') fun hin => ⟨hin.1, hm.stores.hidden ▸ hin.2⟩
  stores := hm.stores.renamed

theorem lookup_mirrors (h : Running hidden inside p p' w m m') (name : String) (line : Nat) :
    Mirrors w inside Value.Renamed (lookup p name line) (lookup p' name line) m m' := by
  have hlookup := h.stores.lookup h.place name
  unfold Mirrors
  rw [lookup_apply, lookup_apply]
  generalize m.store.lookup p name = x at hlookup ⊢
  generalize m'.store.lookup p' name = x' at hlookup ⊢
  cases hlookup with
  | ok hv => exact ⟨w, .refl h.stores, hv⟩
  | error e => exact ⟨rfl, w, .refl h.stores⟩

/-- Operations on scopes that take the stores a step further, or both fail. -/
theorem tryStore_mirrors (hs : m.store.Renamed w m'.store) {f f' : Store → Except ScopeError Store}
    (h : SameExcept (Store.Moves w inside m.store m'.store w) (f m.store) (f' m'.store))
    (name : String) (line : Nat) :
    Mirrors w inside (fun _ _ _ => True) (tryStore f >>= ofScope name line)
      (tryStore f' >>= ofScope name line) m m' := by
  unfold Mirrors
  rw [ofTryStore_apply, ofTryStore_apply]
  generalize f m.store = x at h ⊢
  generalize f' m'.store = x' at h ⊢
  cases h with
  | ok hmoves => exact ⟨w, .of_stores hmoves, trivial⟩
  | error e => exact ⟨rfl, w, .refl hs⟩

theorem declare_mirrors (h : Running hidden inside p p' w m m') (name : String) {v v' : Value}
    (hv : v.Renamed w v') (constant : Bool) (line : Nat) :
    Mirrors w inside (fun _ _ _ => True) (declare p name v constant line)
      (declare p' name v' constant line) m m' :=
  tryStore_mirrors h.stores (h.stores.declare h.place name hv constant) name line

theorem assign_mirrors (h : Running hidden inside p p' w m m') (name : String) {v v' : Value}
    (hv : v.Renamed w v') (line : Nat) :
    Mirrors w inside (fun _ _ _ => True) (assign p name v line) (assign p' name v' line) m m' :=
  tryStore_mirrors h.stores (h.stores.assign h.place name hv) name line

theorem freshIdentity_mirrors (hs : m.store.Renamed w m'.store) :
    Mirrors w inside (fun w => w.identity) freshIdentity freshIdentity m m' :=
  ⟨_, .of_stores (.freshIdentity hs), .inr ⟨rfl, rfl⟩⟩

theorem child_mirrors (hs : m.store.Renamed w m'.store) (hp : w.scope p p') :
    Mirrors w False (fun w => w.scope) (child p) (child p') m m' :=
  ⟨_, .of_stores (.pushChild hs hp), .inr ⟨rfl, rfl⟩⟩

theorem print_mirrors (hs : m.store.Renamed w m'.store) (text : String) :
    Mirrors w inside (fun _ _ _ => True) (print text) (print text) m m' :=
  ⟨w, ⟨.refl hs, #[text], rfl, rfl⟩, trivial⟩

end Steps

/-! ## Expressions -/

/-- Calls stay in step, outside the hidden scopes. -/
structure CallsMirror (hidden : Option (ScopeId × ScopeId)) (c d : Calls) : Prop where
  function : ∀ opts f f' arguments arguments' line w m m', w.hidden = hidden →
    m.store.Renamed w m'.store → f.Renamed w f' →
    List.Forall₂ (Value.Renamed w) arguments arguments' →
    Mirrors w False Value.Renamed (c.function opts f arguments line)
      (d.function opts f' arguments' line) m m'
  native : ∀ op arguments arguments' scope scope' w m m', (∀ key, op ≠ .hosted key) →
    w.hidden = hidden → m.store.Renamed w m'.store →
    List.Forall₂ (Value.Renamed w) arguments arguments' →
    Mirrors w False (fun w => SameExcept (Value.Renamed w)) (c.native op arguments scope)
      (d.native op arguments' scope') m m'

/-- Machines that run in `p` and `p'`, from the renaming `start` on. -/
def mirroring (hidden : Option (ScopeId × ScopeId)) (inside : Prop) (p p' : ScopeId)
    (start : Renaming) : Coupling Machine Machine where
  World := Renaming
  Leads := (· ≤ ·)
  Fits := Value.Renamed
  Runs w V c d :=
    start ≤ w → ∀ m m', Running hidden inside p p' w m m' → Mirrors w inside V c d m m'

section Expressions

variable {c d : Calls} {opts : Options} {hidden : Option (ScopeId × ScopeId)} {inside : Prop}
  {p p' : ScopeId} {w : Renaming} {m m' : Machine}

theorem CallsMirror.couples (hc : CallsMirror hidden c d) (opts : Options) (inside : Prop)
    (p p' : ScopeId) (start : Renaming) :
    CouplesStmt (mirroring hidden inside p p' start) c d opts p p'
      { stmt := fun s => s.isFunction → start.scope p p' } {} where
  pure hv _ _ _ h := .pure h.stores hv
  bind hx hf hw m m' h := (hx hw m m' h).bind fun w' a b n n' hmoves hv =>
    hf w' a b hmoves.stores.le hv (Renaming.le_trans hw hmoves.stores.le) n n' (h.after hmoves)
  fault cause line _ _ _ h := .fault h.stores cause line
  mono hw hv := hv.mono hw
  looksLike hv := hv.looksLike
  null := .null
  number := .number
  string := .string
  get := by
    rintro w o o' key ⟨⟩
    next hes => exact hes.get key
  ofList hes := (Value.entriesRenamed_of_forall₂ hes).ofList
  lookup _ _ _ _ h := lookup_mirrors h _ _
  shorthand _ _ _ _ h := lookup_mirrors h _ _
  assign _ hv _ _ _ h := assign_mirrors h _ hv _
  function := by
    rintro w f f' vs vs' line ⟨⟩ hvs - m m' h
    next hf => exact (hc.function opts f f' vs vs' line w m m' h.hidden h.stores hf hvs).enter inside
  native := by
    rintro w n n' vs vs' ⟨⟩ hvs
    next hn =>
      refine ⟨hn.name.symm, fun _ m m' h => ?_⟩
      rw [← hn.op]
      exact (hc.native n.op vs vs' p p' w m m' hn.standard h.hidden h.stores hvs).enter inside
  declare _ hv _ _ _ h := declare_mirrors h _ hv _ _
  newFunction {w name params body line} hs hw m m' h := by
    have hfresh : Mirrors w inside (fun w => w.identity) freshIdentity freshIdentity m m' :=
      freshIdentity_mirrors h.stores
    obtain ⟨i, n, i', n', w', hi, hi', hmoves, hsame⟩ | ⟨e, n, n', w', he, -⟩ := hfresh.ends
    · have hscope : w'.scope p p' := hmoves.stores.le.1 p p' (hw.1 p p' (hs rfl))
      rw [List.map_id]
      exact .of_ok hi hi' hmoves (.function ⟨hsame, rfl, rfl, rfl, hscope⟩)
    · cases he

theorem expr_mirrors (hc : CallsMirror hidden c d) (h : Running hidden inside p p' w m m')
    (e : Expr) : Mirrors w inside Value.Renamed (expr c opts p e) (expr d opts p' e) m m' :=
  expr_coupled (hc.couples opts inside p p' w).toCouples (Code.stmt_inherits _).toInheritsExpr
    Relining.same_keeps e trivial (Renaming.le_refl w) m m' h

/-! ## Statements -/

theorem stmts_mirrors (hc : CallsMirror hidden c d) (h : Running hidden inside p p' w m m')
    {ss : List Stmt} (hss : ∀ s ∈ ss, s.isFunction → w.scope p p') {last last' : Value}
    (hlast : last.Renamed w last') :
    Mirrors w inside Value.Renamed (stmts c opts p last ss) (stmts d opts p' last' ss) m m' :=
  stmts_coupled_same (hc.couples opts inside p p' w) (Code.stmt_inherits _) hss hlast
    (Renaming.le_refl w) m m' h

/-! ## Calls -/

theorem bindParams_mirrors (hc : CallsMirror hidden c d) (h : Running hidden inside p p' w m m')
    (line : Nat) (params : List String) {arguments arguments' : List Value}
    (ha : List.Forall₂ (Value.Renamed w) arguments arguments') :
    Mirrors w inside (fun _ _ _ => True) (bindParams p line params arguments)
      (bindParams p' line params arguments') m m' :=
  bindParams_coupled (hc.couples {} inside p p' w) line params (fun _ _ => trivial) ha
    (Renaming.le_refl w) m m' h

theorem function_mirrors (hc : CallsMirror hidden c d) (hw : w.hidden = hidden)
    (hs : m.store.Renamed w m'.store) {f f' : Closure} (hf : f.Renamed w f')
    {arguments arguments' : List Value}
    (ha : List.Forall₂ (Value.Renamed w) arguments arguments') (line : Nat) :
    Mirrors w False Value.Renamed (function c opts f arguments line)
      (function d opts f' arguments' line) m m' := by
  unfold function
  rw [← hf.params, ← hf.body]
  refine (child_mirrors hs hf.scope).bind fun w₁ frame frame' n₁ n₁' hm₁ hframe => ?_
  have h₁ : Running hidden False frame frame' w₁ n₁ n₁' :=
    ⟨hm₁.stores.hidden.trans hw, .inl hframe, hm₁.stores.renamed⟩
  have ha₁ := Value.forall₂_mono hm₁.stores.le ha
  refine (bindParams_mirrors hc h₁ line f.params ha₁).bind fun w₂ _ _ n₂ n₂' hm₂ _ => ?_
  exact stmts_mirrors hc (h₁.after hm₂) (fun _ _ _ => hm₂.stores.le.1 _ _ hframe) .null

end Expressions

theorem native_mirrors (host host' : Host) (calls calls' : Calls) {op : NativeOp}
    (hop : ∀ key, op ≠ .hosted key) {arguments arguments' : List Value} {w : Renaming}
    {m m' : Machine} (hs : m.store.Renamed w m'.store)
    (ha : List.Forall₂ (Value.Renamed w) arguments arguments') (scope scope' : ScopeId) :
    Mirrors w False (fun w => SameExcept (Value.Renamed w)) (op.run host calls arguments scope)
      (op.run host' calls' arguments' scope') m m' := by
  cases op with
  | print =>
    show Mirrors w False (fun w => SameExcept (Value.Renamed w))
      (Eval.print (Value.displayAll arguments) >>= fun _ => Pure.pure (.ok .null))
      (Eval.print (Value.displayAll arguments') >>= fun _ => Pure.pure (.ok .null)) m m'
    rw [Value.displayAll_eq ha]
    exact (print_mirrors hs _).bind fun w₁ _ _ n₁ n₁' hm₁ _ => .pure hm₁.stores.renamed (.ok .null)
  | typeOf => exact .pure hs (Value.typeName_renamed ha)
  | hosted key => exact absurd rfl (hop key)

theorem callsWithin_mirror (hidden : Option (ScopeId × ScopeId)) (host : Host) (n : Nat) :
    CallsMirror hidden (callsWithin host n) (callsWithin host n) := by
  induction n with
  | zero =>
    exact ⟨fun _ _ _ _ _ _ _ _ _ _ hs _ _ => .throw hs _, fun _ _ _ _ _ _ _ _ _ _ hs _ => .throw hs _⟩
  | succ n ih =>
    exact ⟨fun opts f f' arguments arguments' line w m m' hw hs hf ha =>
        function_mirrors ih hw hs hf ha line,
      fun op arguments arguments' scope scope' w m m' hop hw hs ha =>
        native_mirrors host host _ _ hop hs ha scope scope'⟩

end Eval

end ScopeScript
