import ScopeScript.Proofs.Heap.Merged
import ScopeScript.Proofs.Separation.Reach

/-!
# Released frames are not missed

A machine keeps every scope that was ever made, a heap frees the frame of a call when nothing refers
to it.  `m.Remembers base h` says that the machine still has all that the heap has in its scopes from
`base` on: those that are not freed merge to scopes of the machine, and lead only to each other.

Programs cannot tell the two apart.  They run on a machine that remembers the heap as on the heap
itself, to the same end and with the same output, and the machine remembers what the heap becomes:

    stmts_remembered           the same statements in a scope that is live
    Machine.Remembers.leave    the end of a call, where the frame is cleared, freed or kept
    callsWithin_remembered     calls of any depth, by induction on the depth

The functions of the embedding program may be others on both sides: no value leads to one.

Main result: `Program.finish_remembered`.
-/

namespace ScopeScript

/-! ## Values -/

namespace Value

variable {P : ScopeId → Prop} {issued : Identity}

mutual

theorem Renamed.eq_of_only {v v' : Value} (h : v.Renamed (.only P issued) v') : v' = v := by
  match h with
  | .null | .number _ | .boolean _ | .string _ => rfl
  | .object hes => rw [hes.eq_of_only]
  | @Renamed.function _ ⟨_, _, _, _, _⟩ ⟨_, _, _, _, _⟩
      ⟨⟨hidentity, _⟩, hname, hparams, hbody, ⟨hscope, _⟩⟩ =>
    cases hidentity
    cases hname
    cases hparams
    cases hbody
    cases hscope
    rfl
  | @Renamed.native _ ⟨_, _, _⟩ ⟨_, _, _⟩ ⟨⟨hidentity, _⟩, hname, hop, _⟩ =>
    cases hidentity
    cases hname
    cases hop
    rfl

theorem EntriesRenamed.eq_of_only {es es' : List (String × Value)}
    (h : EntriesRenamed (.only P issued) es es') : es' = es := by
  match h with
  | .nil => rfl
  | .cons hv hes => rw [hv.eq_of_only, hes.eq_of_only]

end

end Value

/-! ## Machines that remember -/

namespace Heap

/-- The scopes from `base` on that are not freed, those that are not made yet among them. -/
def Kept (base : ScopeId) (h : Heap) (i : ScopeId) : Prop := base ≤ i ∧ (h.cell i).freed = false

/-- What values of the heap lead to: live scopes from `base` on. -/
def known (base : ScopeId) (h : Heap) : Renaming :=
  .only (fun i => base ≤ i ∧ h.Live i) h.issued

theorem Grows.known_le {base : ScopeId} {h h' : Heap} (hg : h.Grows h') :
    h.known base ≤ h'.known base :=
  ⟨fun _ _ hi => ⟨hi.1, hi.2.1, hg.live _ hi.2.2⟩,
    fun _ _ hi => ⟨hi.1, Nat.lt_of_lt_of_le hi.2 hg.issued_le⟩⟩

end Heap

/-- The machine still has all that the heap has in its scopes from `base` on. -/
structure Machine.Remembers (m : Machine) (base : ScopeId) (h : Heap) : Prop where
  base_le : base ≤ h.cells.size
  merges : h.Merges (h.Kept base) m.store
  values : ∀ i, h.Kept base i → ∀ v ∈ (h.cell i).values, v.Renamed (h.known base) v
  output : h.output = m.output

namespace Machine.Remembers

variable {base i frame : ScopeId} {h h' : Heap} {m : Machine} {name : String} {v : Value}
  {constant : Bool}

theorem lookup (hm : m.Remembers base h) (hi : h.Kept base i) (name : String) :
    SameExcept (fun v v' => v.Renamed (h.known base) v') (h.lookup i name)
      (m.store.lookup i name) := by
  rw [← hm.merges.lookup_eq hi]
  unfold Heap.lookup
  cases hj : h.resolve i name with
  | none => exact .error _
  | some j =>
    obtain ⟨hPj, -⟩ := hm.merges.of_resolve hi hj
    dsimp only [Option.bind_some]
    cases hv : (h.cell j).bindings.get? name with
    | none => exact .error _
    | some v => exact .ok (hm.values j hPj v (Cell.mem_values_of_get? hv))

/-- Other values in a scope, which is neither freed nor moved. -/
theorem modify (hm : m.Remembers base h) {f : Cell → Cell} {s : Store}
    (hmerges : (h.modifyCell i f).Merges (h.Kept base) s) (hfreed : ∀ c, (f c).freed = c.freed)
    (hvalues : ∀ v ∈ (f (h.cell i)).values,
      v ∈ (h.cell i).values ∨ v.Renamed (h.known base) v) :
    ({ m with store := s } : Machine).Remembers base (h.modifyCell i f) := by
  have hfreed (j : ScopeId) := h.freed_modifyCell i j hfreed
  have hkept : (h.modifyCell i f).Kept base = h.Kept base := by
    funext j
    unfold Heap.Kept
    rw [hfreed]
  have hknown : (h.modifyCell i f).known base = h.known base := by
    unfold Heap.known Heap.Live
    simp only [hfreed, h.size_modifyCell]
    rfl
  refine ⟨(h.size_modifyCell i f).symm ▸ hm.base_le, hkept.symm ▸ hmerges, fun j hj v hv => ?_,
    hm.output⟩
  rw [hkept] at hj
  rw [hknown]
  rw [Heap.cell_modifyCell] at hv
  split at hv
  · next hij =>
    obtain ⟨rfl, -⟩ := hij
    exact (hvalues v hv).elim (hm.values i hj v) id
  · exact hm.values j hj v hv

theorem declare (hm : m.Remembers base h) (hi : h.Kept base i) (name : String)
    (hv : v.Renamed (h.known base) v) (constant : Bool) :
    SameExcept (fun h' s => h.Grows h' ∧ ({ m with store := s } : Machine).Remembers base h')
      (h.declare i name v constant) (m.store.declare i name v constant) := by
  refine (hm.merges.declare hi name v constant).imp fun h' s hh _ hmerges => ?_
  obtain ⟨-, rfl⟩ := Heap.declare_eq_ok_iff.1 hh
  refine ⟨.of_modifyCell h i (fun _ => rfl) fun _ => rfl,
    hm.modify hmerges (fun _ => rfl) fun w hw => (Cell.mem_values_bind hw).imp_right ?_⟩
  rintro rfl
  exact hv

theorem assign (hm : m.Remembers base h) (hi : h.Kept base i) (name : String)
    (hv : v.Renamed (h.known base) v) :
    SameExcept (fun h' s => h.Grows h' ∧ ({ m with store := s } : Machine).Remembers base h')
      (h.assign i name v) (m.store.assign i name v) := by
  refine (hm.merges.assign hi name v).imp fun h' s hh _ hmerges => ?_
  obtain ⟨j, -, -, rfl⟩ := Heap.assign_eq_ok hh
  refine ⟨.of_modifyCell h j (fun _ => rfl) fun _ => rfl,
    hm.modify hmerges (fun _ => rfl) fun w hw => (Cell.mem_values_replace hw).imp_right ?_⟩
  rintro rfl
  exact hv

theorem freshIdentity (hm : m.Remembers base h) :
    let h' : Heap := { h with issued := h.issued + 1 }
    h.Grows h' ∧ ({ m with store := { m.store with issued := m.store.issued + 1 } } :
      Machine).Remembers base h' := by
  intro h'
  have hg : h.Grows h' := .of_cells_eq rfl (Nat.le_succ _)
  exact ⟨hg, hm.base_le, hm.merges.issue, fun i hi v hv => (hm.values i hi v hv).mono hg.known_le,
    hm.output⟩

theorem child (hm : m.Remembers base h) (hi : base ≤ i) (hlive : h.Live i) :
    let h' := h.push { parent := some i }
    h.Grows h' ∧ ({ m with store := m.store.pushChild i } : Machine).Remembers base h' ∧
      base ≤ h.cells.size ∧ h'.Live h.cells.size := by
  intro h'
  have hg : h.Grows h' := .of_push h _
  have hcell (j : ScopeId) : h'.cell j = if j = h.cells.size then { parent := some i } else h.cell j :=
    h.cell_push j _
  have hkept : h'.Kept base = h.Kept base := by
    funext j
    unfold Heap.Kept
    rw [hcell]
    split
    · next hj => rw [hj, Heap.cell_of_size_le (Nat.le_refl _)]
    · rfl
  have hparent : ∀ p, some i = some p → h.Kept base p ∧ p < h.cells.size := by
    rintro p ⟨⟩
    exact ⟨⟨hi, hlive.2⟩, hlive.1⟩
  have hmerges : h'.Merges (h.Kept base) (m.store.pushChild i) :=
    hm.merges.push (.empty (m.store.chain i) (some i)) hparent rfl
  refine ⟨hg, ⟨Nat.le_trans hm.base_le hg.size_le, hkept.symm ▸ hmerges, fun j hj v hv => ?_,
    hm.output⟩, hm.base_le, h.live_push rfl⟩
  rw [hcell] at hv
  split at hv
  · cases hv
  · rw [hkept] at hj
    exact (hm.values j hj v hv).mono hg.known_le

/-- However a call is over, the machine remembers. -/
theorem leave (hm : m.Remembers base h) {vs : List Value} (hframe : frame < h.cells.size)
    (hl : h.Leaves frame vs h') :
    m.Remembers base h' ∧
      ∀ v ∈ vs, v.Renamed (h.known base) v → v.Renamed (h'.known base) v := by
  cases hl with
  | kept => exact ⟨hm, fun _ _ hv => hv⟩
  | freed hf =>
    let h' := h.modifyCell frame Cell.free
    have hsize : h'.cells.size = h.cells.size := h.size_modifyCell frame Cell.free
    have hparent (j : ScopeId) : h'.parent? j = h.parent? j :=
      h.parent?_modifyCell frame j fun _ => rfl
    have hother {j : ScopeId} (hj : j ≠ frame) : h'.cell j = h.cell j :=
      h.cell_modifyCell_of_ne Cell.free (Ne.symm hj)
    -- the frame is the only scope that is missed
    have hkept {j : ScopeId} : h'.Kept base j ↔ h.Kept base j ∧ j ≠ frame := by
      by_cases hj : j = frame
      · have hfreed : (h'.cell frame).freed = true := by
          show ((h.modifyCell frame Cell.free).cell frame).freed = true
          rw [Heap.cell_modifyCell, if_pos ⟨rfl, hframe⟩]
          rfl
        simp [Heap.Kept, hj, hfreed]
      · simp [Heap.Kept, hj, hother]
    have hvalue {v : Value} (hv : v.Renamed (h.known base) v) (hne : frame ∉ v.scopes) :
        v.Renamed (h'.known base) v := by
      refine Value.renamed_self (hv.known fun _ _ hi => hi.2) fun j hj => ?_
      obtain ⟨k, rfl, hbase, hlive⟩ := hv.paired j hj
      have hjf : j ≠ frame := fun e => hne (e ▸ hj)
      exact ⟨hbase, hsize.symm ▸ hlive.1, (hother hjf).symm ▸ hlive.2⟩
    refine ⟨⟨hsize.symm ▸ hm.base_le, ⟨hm.merges.size.trans hsize.symm, hm.merges.issued,
      fun j hj => ?_, fun j hj => ?_, fun j hj p hp => ?_⟩, fun j hj v hv => ?_, hm.output⟩,
      fun v hv hknown => hvalue hknown (hf.elsewhere v hv)⟩
    · obtain ⟨hj, hne⟩ := hkept.1 hj
      rw [hother hne]
      exact hm.merges.cells j hj
    · rw [hparent]
      exact hm.merges.ancestors j (hkept.1 hj).1
    · rw [hparent] at hp
      obtain ⟨hj, -⟩ := hkept.1 hj
      obtain ⟨hp', hlt⟩ := hm.merges.parent j hj p hp
      have hne : p ≠ frame := fun e =>
        hf.parent j ⟨Heap.lt_size_of_parent? hp, hj.2⟩ (e ▸ hp)
      exact ⟨hkept.2 ⟨hp', hne⟩, hlt⟩
    · obtain ⟨hj, hne⟩ := hkept.1 hj
      rw [hother hne] at hv
      exact hvalue (hm.values j hj v hv) (hf.bound j hne v hv)

end Machine.Remembers

/-! ## Runs -/

namespace Eval

variable {α β γ δ : Type} {base : ScopeId} {h : Heap} {m : Machine}

/-- Both runs end, with results that `V` relates, or are stopped in the same way.  The heap has
grown since it was `h`, and the machine remembers it. -/
inductive Remembered (base : ScopeId) (h : Heap) (V : Heap → α → γ → Prop) :
    EStateM.Result Halt Heap α → EStateM.Result Halt Machine γ → Prop
  | ok {a : α} {b : γ} {h' : Heap} {m' : Machine} (hg : h.Grows h') (hm : m'.Remembers base h')
      (hv : V h' a b) : Remembered base h V (.ok a h') (.ok b m')
  | error (e : Halt) {h' : Heap} {m' : Machine} (hg : h.Grows h') (hm : m'.Remembers base h') :
      Remembered base h V (.error e h') (.error e m')

/-- Values of the heap, which are the same on both sides. -/
abbrev SameValue (base : ScopeId) (h : Heap) (v v' : Value) : Prop := v.Renamed (h.known base) v'

namespace Remembered

variable {V : Heap → α → γ → Prop} {W : Heap → β → δ → Prop} {c : EvalIn Heap α} {d : Eval γ}

theorem bind {f : α → EvalIn Heap β} {g : γ → Eval δ} (hc : Remembered base h V (c h) (d m))
    (hf : ∀ h' m' a b, h.Grows h' → m'.Remembers base h' → V h' a b →
      Remembered base h' W (f a h') (g b m')) :
    Remembered base h W ((c >>= f) h) ((d >>= g) m) := by
  rw [bind_apply, bind_apply]
  generalize c h = r at hc ⊢
  generalize d m = r' at hc ⊢
  cases hc with
  | @ok a b h' m' hg hm hv =>
    have hrest := hf h' m' a b hg hm hv
    dsimp only
    generalize f a h' = r at hrest ⊢
    generalize g b m' = r' at hrest ⊢
    cases hrest with
    | ok hg' hm' hw => exact .ok (hg.trans hg') hm' hw
    | error e hg' hm' => exact .error e (hg.trans hg') hm'
  | error e hg hm => exact .error e hg hm

theorem pure (hm : m.Remembers base h) {a : α} {b : γ} (hv : V h a b) :
    Remembered base h V ((Pure.pure a : EvalIn Heap α) h) ((Pure.pure b : Eval γ) m) :=
  .ok (.refl h) hm hv

theorem throw (hm : m.Remembers base h) (e : Halt) :
    Remembered base h V ((throw e : EvalIn Heap α) h) ((MonadExcept.throw e : Eval γ) m) :=
  .error e (.refl h) hm

end Remembered

/-! ## Steps -/

section Steps

variable {scope : ScopeId}

theorem lookup_remembered (hm : m.Remembers base h) (hscope : h.Kept base scope) (name : String)
    (line : Nat) :
    Remembered base h (SameValue base) (lookup scope name line h) (lookup scope name line m) := by
  have hlookup := hm.lookup hscope name
  rw [Heap.lookup_apply, lookup_apply]
  generalize h.lookup scope name = x at hlookup ⊢
  generalize m.store.lookup scope name = x' at hlookup ⊢
  cases hlookup with
  | ok hv => exact .ok (.refl h) hm hv
  | error e => exact .error _ (.refl h) hm

/-- Operations on scopes that both do, or that fail on both. -/
theorem tryHeap_remembered (hm : m.Remembers base h) {f : Heap → Except ScopeError Heap}
    {g : Store → Except ScopeError Store}
    (hfg : SameExcept (fun h' s => h.Grows h' ∧ ({ m with store := s } : Machine).Remembers base h')
      (f h) (g m.store)) (name : String) (line : Nat) :
    Remembered base h (fun _ _ _ => True) ((Heap.tryHeap f >>= ofScope name line) h)
      ((tryStore g >>= ofScope name line) m) := by
  rw [Heap.ofTryHeap_apply, ofTryStore_apply]
  generalize f h = x at hfg ⊢
  generalize g m.store = x' at hfg ⊢
  cases hfg with
  | ok hstep => exact .ok hstep.1 hstep.2 trivial
  | error e => exact .error _ (.refl h) hm

theorem print_remembered (hm : m.Remembers base h) (text : String) :
    Remembered base h (fun _ _ _ => True) (print text h) (print text m) :=
  .ok (.of_cells_eq rfl (Nat.le_refl _))
    ⟨hm.base_le, ⟨hm.merges.size, hm.merges.issued, hm.merges.cells, hm.merges.ancestors,
      hm.merges.parent⟩, hm.values, congrArg (·.push text) hm.output⟩ trivial

end Steps

/-! ## Expressions and statements -/

/-- Calls of functions of the heap are remembered. -/
structure CallsRemembered (base : ScopeId) (c : CallsIn Heap) (d : Calls) : Prop where
  function : ∀ opts f f' arguments arguments' line h m, m.Remembers base h →
    SameValue base h (.function f) (.function f') →
    List.Forall₂ (SameValue base h) arguments arguments' →
    Remembered base h (SameValue base) (c.function opts f arguments line h)
      (d.function opts f' arguments' line m)
  native : ∀ op arguments arguments' scope h m, (∀ key, op ≠ .hosted key) → m.Remembers base h →
    List.Forall₂ (SameValue base h) arguments arguments' →
    Remembered base h (fun h => SameExcept (SameValue base h)) (c.native op arguments scope h)
      (d.native op arguments' scope m)

/-- Runs in a scope that was live when the heap was `start`. -/
def remembering (base : ScopeId) (start : Heap) : Coupling Heap Machine where
  World := Heap
  Leads := Heap.Grows
  Fits := SameValue base
  Runs h V c d := start.Grows h → ∀ m : Machine, m.Remembers base h → Remembered base h V (c h) (d m)

section Statements

variable {c : CallsIn Heap} {d : Calls} {scope : ScopeId}

theorem CallsRemembered.couples (hc : CallsRemembered base c d) (opts : Options)
    (hbase : base ≤ scope) {start : Heap} (hlive : start.Live scope) :
    CouplesStmt (remembering base start) c d opts scope scope {} {} where
  pure hv _ _ hm := .pure hm hv
  bind hx hf hstart m hm := (hx hstart m hm).bind fun h' m' a b hg hm' hv =>
    hf h' a b hg hv (hstart.trans hg) m' hm'
  fault _ _ _ _ hm := .throw hm _
  mono hg hv := hv.mono hg.known_le
  looksLike hv := hv.looksLike
  null := .null
  number := .number
  string := .string
  get := by
    rintro h o o' key ⟨⟩
    next hes => exact hes.get key
  ofList hes := (Value.entriesRenamed_of_forall₂ hes).ofList
  lookup _ hstart _ hm := lookup_remembered hm ⟨hbase, (hstart.live _ hlive).2⟩ _ _
  shorthand _ hstart _ hm := lookup_remembered hm ⟨hbase, (hstart.live _ hlive).2⟩ _ _
  assign _ hv hstart _ hm := by
    obtain rfl := hv.eq_of_only
    exact tryHeap_remembered hm (hm.assign ⟨hbase, (hstart.live _ hlive).2⟩ _ hv) _ _
  function hf hvs _ m hm := hc.function _ _ _ _ _ _ _ m hm hf hvs
  native := by
    rintro h n n' vs vs' ⟨⟩ hvs
    next hn =>
      refine ⟨hn.name.symm, fun _ m hm => ?_⟩
      rw [← hn.op]
      exact hc.native n.op vs vs' scope h m hn.standard hm hvs
  declare _ hv hstart _ hm := by
    obtain rfl := hv.eq_of_only
    exact tryHeap_remembered hm (hm.declare ⟨hbase, (hstart.live _ hlive).2⟩ _ hv _) _ _
  newFunction {h name params body line} _ hstart m hm := by
    obtain ⟨hg, hm'⟩ := hm.freshIdentity
    refine .ok hg hm' ?_
    rw [List.map_id, hm.merges.issued]
    exact .function ⟨⟨rfl, Nat.lt_succ_self _⟩, rfl, rfl, rfl,
      ⟨rfl, hbase, (hstart.trans hg).live _ hlive⟩⟩

theorem stmts_remembered (hc : CallsRemembered base c d) (opts : Options)
    (hm : m.Remembers base h) (hbase : base ≤ scope) (hlive : h.Live scope) (ss : List Stmt) :
    Remembered base h (SameValue base) (stmts c opts scope .null ss h)
      (stmts d opts scope .null ss m) :=
  stmts_coupled_same (hc.couples opts hbase hlive) (Code.stmt_inherits _) (fun _ _ => trivial)
    .null (.refl h) m hm

/-! ## Calls -/

/-- A call in a frame that was made since the heap was `h`. -/
theorem inFrame_remembered {h₁ : Heap} {frame : ScopeId} (hg : h.Grows h₁)
    (hframe : h.cells.size ≤ frame) (hlive : h₁.Live frame) {bindParams : EvalIn Heap Unit}
    {body : EvalIn Heap Value} {r : EStateM.Result Halt Machine Value}
    (hbody : Remembered base h₁ (SameValue base)
      ((do bindParams; body : EvalIn Heap Value) h₁) r) :
    Remembered base h (SameValue base) (HasScopes.inFrame frame bindParams body h₁) r := by
  obtain ⟨v, h₂, h₃, hrun, hend, hup⟩ | ⟨e, h₂, h₃, hrun, hend, hup⟩ :=
    Heap.inFrame_ends frame bindParams body h₁
  · have hleaves := hup.leaves
    rw [hrun] at hbody
    rw [hend]
    cases hbody with
    | ok hg₂ hm₂ hv =>
      obtain ⟨hm₃, hvs⟩ := hm₂.leave (hg₂.live _ hlive).1 hleaves
      have hsame := hv.eq_of_only
      subst hsame
      exact .ok ((hg.trans hg₂).leaves hframe hleaves) hm₃ (hvs _ (List.mem_singleton_self _) hv)
  · have hleaves := hup.leaves
    rw [hrun] at hbody
    rw [hend]
    cases hbody with
    | error _ hg₂ hm₂ =>
      exact .error e ((hg.trans hg₂).leaves hframe hleaves)
        (hm₂.leave (hg₂.live _ hlive).1 hleaves).1

theorem function_remembered (hc : CallsRemembered base c d) (opts : Options)
    (hm : m.Remembers base h) {f f' : Closure} (hf : SameValue base h (.function f) (.function f'))
    {arguments arguments' : List Value}
    (ha : List.Forall₂ (SameValue base h) arguments arguments') (line : Nat) :
    Remembered base h (SameValue base) (function c opts f arguments line h)
      (function d opts f' arguments' line m) := by
  have hsame : f = f' := (Value.function.inj hf.eq_of_only).symm
  subst hsame
  obtain ⟨hbase, hlive⟩ : base ≤ f.scope ∧ h.Live f.scope := by
    cases hf with
    | function hf => exact hf.scope.2
  obtain ⟨hg₁, hm₁, hframe, hlive₁⟩ := hm.child hbase hlive
  have hnumber : m.store.scopes.size = h.cells.size := hm.merges.size
  show Remembered base h (SameValue base)
    (HasScopes.inFrame h.cells.size (bindParams h.cells.size line f.params arguments)
      (stmts c opts h.cells.size .null f.body) (h.push { parent := some f.scope }))
    ((do bindParams m.store.scopes.size line f.params arguments'
         stmts d opts m.store.scopes.size .null f.body : Eval Value)
      { m with store := m.store.pushChild f.scope })
  rw [hnumber]
  refine inFrame_remembered hg₁ (Nat.le_refl _) hlive₁ ?_
  have hparams := bindParams_coupled (hc.couples opts hframe hlive₁) line f.params
    (fun _ _ => trivial) (ha.imp fun _ _ hv => hv.mono hg₁.known_le) (.refl _) _ hm₁
  exact hparams.bind fun h₂ m₂ _ _ hg₂ hm₂ _ =>
    stmts_remembered hc opts hm₂ hframe (hg₂.live _ hlive₁) f.body

end Statements

theorem native_remembered (host : HostIn Heap) (host' : Host) (calls : CallsIn Heap)
    (calls' : Calls) {op : NativeOp} (hop : ∀ key, op ≠ .hosted key) (hm : m.Remembers base h)
    {arguments arguments' : List Value}
    (ha : List.Forall₂ (SameValue base h) arguments arguments') (scope : ScopeId) :
    Remembered base h (fun h => SameExcept (SameValue base h))
      (op.run host calls arguments scope h) (op.run host' calls' arguments' scope m) := by
  cases op with
  | print =>
    show Remembered base h (fun h => SameExcept (SameValue base h))
      ((Eval.print (Value.displayAll arguments) >>= fun _ => Pure.pure (.ok .null)) h)
      ((Eval.print (Value.displayAll arguments') >>= fun _ => Pure.pure (.ok .null)) m)
    rw [Value.displayAll_eq ha]
    exact (print_remembered hm _).bind fun h' m' _ _ _ hm' _ => .pure hm' (.ok .null)
  | typeOf => exact .pure hm (Value.typeName_renamed ha)
  | hosted key => exact absurd rfl (hop key)

theorem callsWithin_remembered (host : HostIn Heap) (host' : Host) (base : ScopeId) (n : Nat) :
    CallsRemembered base (callsWithin host n) (callsWithin host' n) := by
  induction n with
  | zero =>
    exact ⟨fun _ _ _ _ _ _ _ _ hm _ _ => .throw hm _, fun _ _ _ _ _ _ _ hm _ => .throw hm _⟩
  | succ n ih =>
    exact ⟨fun opts _ _ _ _ line _ _ hm hf ha => function_remembered ih opts hm hf ha line,
      fun _ _ _ scope _ _ hop hm ha => native_remembered host host' _ _ hop hm ha scope⟩

end Eval

/-! ## Programs -/

namespace Heap

theorem cell_pushGlobal (h : Heap) (i : ScopeId) :
    h.pushGlobal.cell i = if i = h.cells.size then globalCell h.issued else h.cell i := by
  rw [pushGlobal_eq]
  exact h.cell_push i (globalCell h.issued)

theorem size_pushGlobal (h : Heap) : h.pushGlobal.cells.size = h.cells.size + 1 := by
  rw [pushGlobal_eq]
  exact h.size_push (globalCell h.issued)

theorem live_pushGlobal (h : Heap) : h.pushGlobal.Live h.cells.size := by
  refine ⟨h.size_pushGlobal.symm ▸ Nat.lt_succ_self _, ?_⟩
  rw [cell_pushGlobal, if_pos rfl]
  rfl

end Heap

namespace Machine

/-- A machine with the scopes of the heap, all empty. -/
def blank (h : Heap) : Machine where
  store := { scopes := Array.replicate h.cells.size {}, issued := h.issued }
  output := h.output

/-- The same with a new global scope. -/
def global (h : Heap) : Machine := { blank h with store := (blank h).store.pushGlobal }

theorem merges_blank (h : Heap) : h.Merges (h.cells.size ≤ ·) (blank h).store := by
  have hscope (i : ScopeId) : (blank h).store.scope i = {} := by
    show (Array.replicate h.cells.size ({} : Scope)).getD i {} = {}
    rw [Array.getD_eq_getD_getElem?, Array.getElem?_replicate]
    split <;> rfl
  have hcell {i : ScopeId} (hi : h.cells.size ≤ i) : h.cell i = {} := Heap.cell_of_size_le hi
  refine ⟨by simp [blank], rfl, fun i hi => ?_, fun i hi => ?_, fun i hi p hp => ?_⟩
  · rw [hscope, hcell hi]
    exact .empty [] none
  · rw [hscope, Heap.parent?, hcell hi]
    rfl
  · rw [Heap.parent?, hcell hi] at hp
    cases hp

/-- Nothing leads from a new global scope to what the heap holds besides. -/
theorem remembers_global (h : Heap) : (global h).Remembers h.cells.size h.pushGlobal := by
  have hcell {i : ScopeId} (hi : h.cells.size ≤ i) : h.pushGlobal.cell i = {} ∨
      h.pushGlobal.cell i = Heap.globalCell h.issued := by
    rw [h.cell_pushGlobal]
    split
    · exact .inr rfl
    · exact .inl (Heap.cell_of_size_le hi)
  have hkept : h.pushGlobal.Kept h.cells.size = (h.cells.size ≤ ·) := by
    funext i
    refine propext ⟨fun hi => hi.1, fun hi => ⟨hi, ?_⟩⟩
    rcases hcell hi with hc | hc
    · rw [hc]
    · rw [hc]
      rfl
  refine ⟨h.size_pushGlobal.symm ▸ Nat.le_succ _, hkept.symm ▸ (merges_blank h).pushGlobal,
    fun i hi v hv => ?_, ?_⟩
  · have hissued : h.pushGlobal.issued = h.issued + 2 := by
      rw [Heap.pushGlobal_eq]
    have hknown : v.Known h.pushGlobal.issued ∧ v.scopes = [] := by
      rcases hcell hi.1 with hc | hc
      · rw [hc] at hv
        cases hv
      · rw [hc, Heap.values_globalCell] at hv
        simp only [List.mem_cons, List.not_mem_nil, or_false] at hv
        rw [hissued]
        rcases hv with rfl | rfl | rfl | rfl | rfl <;> simp [Value.Known, Value.scopes]
    refine Value.renamed_self hknown.1 ?_
    rw [hknown.2]
    exact fun s hs => absurd hs List.not_mem_nil
  · rw [Heap.pushGlobal_eq]
    rfl

end Machine

/-- A program that runs in a new global scope of a heap ends as it does on a machine, which keeps
every frame. -/
theorem Program.run_remembered (program : Program) (setting : SettingIn Heap) (setting' : Setting)
    (hdepth : setting'.depth = setting.depth) (hoptions : setting'.options = setting.options)
    (h : Heap) :
    Eval.Remembered h.cells.size h.pushGlobal (Eval.SameValue h.cells.size)
      (program.run setting h.cells.size h.pushGlobal)
      (program.run setting' h.cells.size (Machine.global h)) := by
  have hcalls := Eval.callsWithin_remembered setting.host setting'.host h.cells.size setting.depth
  unfold Program.run SettingIn.calls
  rw [hdepth, hoptions]
  exact Eval.stmts_remembered hcalls setting.options (Machine.remembers_global h) (Nat.le_refl _)
    h.live_pushGlobal program

/-- Nobody can tell that frames are given up: the outcome and what is printed are the same. -/
theorem Program.finish_remembered (program : Program) (setting : SettingIn Heap)
    (setting' : Setting) (hdepth : setting'.depth = setting.depth)
    (hoptions : setting'.options = setting.options) (h : Heap) :
    let onHeap := (program.run setting h.cells.size).finish h.pushGlobal
    let onMachine := (program.run setting' h.cells.size).finish (Machine.global h)
    onHeap.1 = onMachine.1 ∧ onHeap.2.output = onMachine.2.output := by
  have hsame := program.run_remembered setting setting' hdepth hoptions h
  dsimp only
  unfold EvalIn.finish EStateM.run
  generalize program.run setting h.cells.size h.pushGlobal = r at hsame ⊢
  generalize program.run setting' h.cells.size (Machine.global h) = r' at hsame ⊢
  cases hsame with
  | ok _ hm hv => exact ⟨congrArg Outcome.value hv.eq_of_only.symm, hm.output⟩
  | error e _ hm =>
    cases e with
    | fault f => exact ⟨rfl, hm.output⟩
    | depth => exact ⟨rfl, hm.output⟩

end ScopeScript
