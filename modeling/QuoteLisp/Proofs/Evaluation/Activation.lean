import QuoteLisp.Proofs.Evaluation.Calls

/-!
# Activations

An interpreter has four activities: it evaluates a value, applies a function, calls a primitive
operation, and loads a file. Each of them goes on to others before it ends. An activation is an
activity with the scope and the machine it starts in, and `Activation.Calls` is the direct step from
one to the next: a form has its cells evaluated and then applies the first to the others, a closure
has its body evaluated, and so on. The step is made as soon as what comes before it has ended, so it
makes sense for activities that never end.

## Frames

When a closure's body is evaluated, that happens in a scope made for it, its frame. An activation
remembers the frames of all closures whose bodies are being evaluated at the time. Nothing depends
on them: they are there to be spoken of.

## No activation is left out

Every evaluation on the way from one value to another, in the sense of the rules of evaluation, is
an activation (`Call.Reaches.exists_frames`).
-/

namespace QuoteLisp

open Run

/-- What an interpreter can be busy with. Arguments are taken as they are. -/
inductive Activity where
  | eval (v : Value)
  | apply (function : Function) (args : List Value)
  | call (operation : Primitive) (args : List Value)
  | load (path : String)

namespace Activity

/-- Does what the interpreter is busy with. -/
def run (library : Library) (fuel : Nat) (scope : ScopeId) : Activity → Run Value
  | eval v => QuoteLisp.eval library fuel scope v
  | apply function args => function.apply library (QuoteLisp.eval library fuel) scope args
  | call operation args => operation.call library (QuoteLisp.eval library fuel) scope args
  | load path => QuoteLisp.load library fuel scope path

/-- The activity ends with the result `a` and the machine `m'`. -/
def Ends (library : Library) (scope : ScopeId) (activity : Activity) (m : Machine) (a : Value)
    (m' : Machine) : Prop :=
  ∃ fuel, Yields (activity.run library fuel scope) m a m'

variable {library : Library} {scope : ScopeId} {m m' m₁ : Machine} {a b : Value}

theorem ends_eval_iff {v : Value} :
    (eval v).Ends library scope m a m' ↔ Derives library scope (.value v) m [a] m' :=
  evaluates_iff_derives

theorem ends_apply_iff {function : Function} {args : List Value} :
    (apply function args).Ends library scope m a m' ↔
      (function.action args).ComesTo library (Derives library) scope m a m' := by
  simp only [Ends, run, Function.apply_eq_perform, Action.comesTo_iff]

theorem ends_call_iff {operation : Primitive} {args : List Value} :
    (call operation args).Ends library scope m a m' ↔
      (operation.action args).ComesTo library (Derives library) scope m a m' := by
  simp only [Ends, run, Primitive.call_eq_perform, Action.comesTo_iff]

theorem ends_load_iff {path : String} :
    (load path).Ends library scope m a m' ↔
      (Action.request (.load path)).ComesTo library (Derives library) scope m a m' := by
  rw [Action.comesTo_iff]
  rfl

/-- Loading a file that cannot be read or parsed comes to an error and does nothing. -/
theorem ends_load_of_error_iff {path : String} {outcome : Except ReadError String}
    {failure : HostError} (hread : library.read? path = some outcome)
    (hforms : fileForms path outcome = .error failure) :
    (load path).Ends library scope m a m' ↔
      a = (EvalError.loadFailed failure.message).toValue ∧ m' = m := by
  rw [ends_load_iff]
  constructor
  · intro h
    cases h with
    | loadFails hread' hforms' =>
      obtain rfl := Option.some.inj (hread.symm.trans hread')
      obtain rfl := Except.error.inj (hforms.symm.trans hforms')
      exact ⟨rfl, rfl⟩
    | load hread' hforms' =>
      obtain rfl := Option.some.inj (hread.symm.trans hread')
      cases hforms.symm.trans hforms'
  · rintro ⟨rfl, rfl⟩
    exact .loadFails hread hforms

/-- Loading any other file runs its forms, and the result is the empty form. -/
theorem ends_load_of_ok_iff {path : String} {outcome : Except ReadError String}
    {forms : List Value} (hread : library.read? path = some outcome)
    (hforms : fileForms path outcome = .ok forms) :
    (load path).Ends library scope m a m' ↔
      a = .unit ∧ Derives library scope (.forms forms) m [] m' := by
  rw [ends_load_iff]
  constructor
  · intro h
    cases h with
    | loadFails hread' hforms' =>
      obtain rfl := Option.some.inj (hread.symm.trans hread')
      cases hforms.symm.trans hforms'
    | load hread' hforms' hrun =>
      obtain rfl := Option.some.inj (hread.symm.trans hread')
      obtain rfl := Except.ok.inj (hforms.symm.trans hforms')
      exact ⟨rfl, hrun⟩
  · rintro ⟨rfl, hrun⟩
    exact .load hread hforms hrun

/-- More fuel keeps the result of an activity. -/
theorem run_below_of_le {fuel fuel' : Nat} (hle : fuel ≤ fuel') (scope : ScopeId)
    (activity : Activity) :
    Run.Below (activity.run library fuel scope) (activity.run library fuel' scope) := by
  have heval := eval_below_of_le library hle
  cases activity with
  | eval v => exact heval scope v
  | apply function args => exact function.apply_below library heval scope args
  | call operation args => exact operation.call_below library heval scope args
  | load path => exact loadFile_below library heval scope path

/-- An activity has one outcome at most. -/
theorem Ends.unique {activity : Activity} (h : activity.Ends library scope m a m')
    (h' : activity.Ends library scope m b m₁) : a = b ∧ m' = m₁ := by
  obtain ⟨fuel, h⟩ := h
  obtain ⟨fuel', h'⟩ := h'
  have hmax := run_below_of_le (Nat.le_max_left fuel fuel') scope activity _ _ _ h
  exact hmax.unique (run_below_of_le (Nat.le_max_right fuel fuel') scope activity _ _ _ h')

end Activity

/-- An activity with the scope and the machine that it starts in, and the frames of the closures
whose bodies are being evaluated at that time, the innermost first. -/
structure Activation where
  scope : ScopeId
  activity : Activity
  machine : Machine
  frames : List ScopeId

namespace Activation

/-- The activation ends with the result `a` and the machine `m'`. -/
def Ends (library : Library) (act : Activation) (a : Value) (m' : Machine) : Prop :=
  act.activity.Ends library act.scope act.machine a m'

/-- The first activation goes on to the second directly. -/
inductive Calls (library : Library) : Activation → Activation → Prop
  /-- A cell of a form is evaluated once the cells before it have values. -/
  | cell {scope : ScopeId} {before after values : List Value} {v : Value} {m m₁ : Machine}
      {frames : List ScopeId} :
      Derives library scope (.cells before) m values m₁ →
      Calls library ⟨scope, .eval (.sexpr (before ++ v :: after)), m, frames⟩
        ⟨scope, .eval v, m₁, frames⟩
  /-- A form applies its first cell to the others once all have values and none has failed. -/
  | apply {scope : ScopeId} {cells args : List Value} {arg : Value} {function : Function}
      {m m₁ : Machine} {frames : List ScopeId} :
      Derives library scope (.cells cells) m (function.toValue :: arg :: args) m₁ →
      (∀ v ∈ arg :: args, v.isError = false) →
      Calls library ⟨scope, .eval (.sexpr cells), m, frames⟩
        ⟨scope, .apply function (arg :: args), m₁, frames⟩
  | primitive {scope : ScopeId} {operation : Primitive} {args : List Value} {m : Machine}
      {frames : List ScopeId} :
      Calls library ⟨scope, .apply (.primitive operation) args, m, frames⟩
        ⟨scope, .call operation args, m, frames⟩
  /-- The body of a closure that has an argument for every formal is evaluated in a new frame. -/
  | body {scope : ScopeId} {closure : Closure} {args : List Value} {bound : Bindings}
      {m : Machine} {frames : List ScopeId} :
      closure.take args = .ok ([], bound) →
      Calls library ⟨scope, .apply (.closure closure) args, m, frames⟩
        ⟨m.store.nextId, .eval (.sexpr closure.body), m.enter bound scope,
          m.store.nextId :: frames⟩
  | evaluate {scope : ScopeId} {operation : Primitive} {args cells : List Value} {m : Machine}
      {frames : List ScopeId} :
      operation.request args = .ok (.evaluate cells) →
      Calls library ⟨scope, .call operation args, m, frames⟩
        ⟨scope, .eval (.sexpr cells), m, frames⟩
  | load {scope : ScopeId} {operation : Primitive} {args : List Value} {path : String}
      {m : Machine} {frames : List ScopeId} :
      operation.request args = .ok (.load path) →
      Calls library ⟨scope, .call operation args, m, frames⟩ ⟨scope, .load path, m, frames⟩
  /-- A form of a file is evaluated once those before it have been. -/
  | form {scope : ScopeId} {path : String} {outcome : Except ReadError String}
      {before after : List Value} {v : Value} {m m₁ : Machine} {frames : List ScopeId} :
      library.read? path = some outcome → fileForms path outcome = .ok (before ++ v :: after) →
      Derives library scope (.forms before) m [] m₁ →
      Calls library ⟨scope, .load path, m, frames⟩ ⟨scope, .eval v, m₁, frames⟩

/-- The second activation is the first one or comes about on the way. -/
def Reaches (library : Library) : Activation → Activation → Prop :=
  Relation.ReflTransGen (Calls library)

/-- A form goes on to one of its cells, or it applies a function once all of them have values. -/
theorem Calls.of_sexpr {library : Library} {scope : ScopeId} {cells : List Value} {m : Machine}
    {frames : List ScopeId} {act : Activation}
    (h : Calls library ⟨scope, .eval (.sexpr cells), m, frames⟩ act) :
    (∃ before v after values m₁, cells = before ++ v :: after ∧
        Derives library scope (.cells before) m values m₁ ∧ act = ⟨scope, .eval v, m₁, frames⟩) ∨
      ∃ function arg args m₁,
        Derives library scope (.cells cells) m (function.toValue :: arg :: args) m₁ ∧
          act = ⟨scope, .apply function (arg :: args), m₁, frames⟩ := by
  cases h with
  | cell hbefore => exact .inl ⟨_, _, _, _, _, rfl, hbefore, rfl⟩
  | apply hcells _ => exact .inr ⟨_, _, _, _, hcells, rfl⟩

/-- No form of a file is evaluated that cannot be read or parsed. -/
theorem not_calls_of_fileForms {library : Library} {scope : ScopeId} {path : String}
    {outcome : Except ReadError String} {failure : HostError} {m : Machine}
    {frames : List ScopeId} {act : Activation} (hread : library.read? path = some outcome)
    (hforms : fileForms path outcome = .error failure) :
    ¬Calls library ⟨scope, .load path, m, frames⟩ act := by
  intro h
  cases h with
  | form hread' hforms' _ =>
    obtain rfl := Option.some.inj (hread.symm.trans hread')
    cases hforms.symm.trans hforms'

end Activation

/-! ## Cells and forms in two parts -/

section

variable {library : Library} {scope : ScopeId} {m m' : Machine}

/-- Cells are evaluated from left to right, so those of a front part come first. -/
theorem derives_cells_append_iff {vs ws as : List Value} :
    Derives library scope (.cells (vs ++ ws)) m as m' ↔
      ∃ bs cs m₁, as = bs ++ cs ∧ Derives library scope (.cells vs) m bs m₁ ∧
        Derives library scope (.cells ws) m₁ cs m' := by
  induction vs generalizing m as with
  | nil =>
    constructor
    · exact fun h ↦ ⟨[], as, m, rfl, .noCells, h⟩
    · rintro ⟨bs, cs, m₁, rfl, hvs, hws⟩
      cases hvs
      exact hws
  | cons v vs ih =>
    constructor
    · intro h
      cases h with
      | cell hv hrest =>
        obtain ⟨bs, cs, m₁, rfl, hvs, hws⟩ := ih.mp hrest
        exact ⟨_, cs, m₁, rfl, .cell hv hvs, hws⟩
    · rintro ⟨bs, cs, m₁, rfl, hvs, hws⟩
      cases hvs with
      | cell hv hvs => exact .cell hv (ih.mpr ⟨_, cs, m₁, rfl, hvs, hws⟩)

theorem Derives.cells_snoc {vs as : List Value} {v a : Value} {m₁ : Machine}
    (hvs : Derives library scope (.cells vs) m as m₁)
    (hv : Derives library scope (.value v) m₁ [a] m') :
    Derives library scope (.cells (vs ++ [v])) m (as ++ [a]) m' :=
  derives_cells_append_iff.mpr ⟨as, [a], m₁, rfl, hvs, .cell hv .noCells⟩

/-- Forms are run from first to last, so those of a front part come first. -/
theorem derives_forms_append_iff {vs ws : List Value} :
    Derives library scope (.forms (vs ++ ws)) m [] m' ↔
      ∃ m₁, Derives library scope (.forms vs) m [] m₁ ∧
        Derives library scope (.forms ws) m₁ [] m' := by
  induction vs generalizing m with
  | nil =>
    constructor
    · exact fun h ↦ ⟨m, .noForms, h⟩
    · rintro ⟨m₁, hvs, hws⟩
      cases hvs
      exact hws
  | cons v vs ih =>
    constructor
    · intro h
      cases h with
      | form hv hrest =>
        obtain ⟨m₁, hvs, hws⟩ := ih.mp hrest
        exact ⟨m₁, .form hv hvs, hws⟩
    · rintro ⟨m₁, hvs, hws⟩
      cases hvs with
      | form hv hvs => exact .form hv (ih.mpr ⟨m₁, hvs, hws⟩)

theorem Derives.forms_snoc {vs : List Value} {v a : Value} {m₁ : Machine}
    (hvs : Derives library scope (.forms vs) m [] m₁)
    (hv : Derives library scope (.value v) m₁ [a] m') :
    Derives library scope (.forms (vs ++ [v])) m [] (m'.report a) :=
  derives_forms_append_iff.mpr ⟨m₁, hvs, .form hv .noForms⟩

end

/-! ## No activation is left out -/

namespace Activation

variable {library : Library} {start : Activation} {scope : ScopeId} {m : Machine}

/-- Where a call of the rules of evaluation belongs among the activations: it is the evaluation of a
value, or a part of an evaluation or of the loading of a file. -/
def Holds (library : Library) (start : Activation) : Call → Prop
  | ⟨scope, .value v, m⟩ => ∃ frames, Reaches library start ⟨scope, .eval v, m, frames⟩
  | ⟨scope, .cells vs, m⟩ => ∃ before after values m₀ frames,
      Reaches library start ⟨scope, .eval (.sexpr (before ++ vs ++ after)), m₀, frames⟩ ∧
        Derives library scope (.cells before) m₀ values m
  | ⟨scope, .forms vs, m⟩ => ∃ path outcome before after m₀ frames,
      Reaches library start ⟨scope, .load path, m₀, frames⟩ ∧
        library.read? path = some outcome ∧
          fileForms path outcome = .ok (before ++ vs ++ after) ∧
            Derives library scope (.forms before) m₀ [] m

theorem Reaches.apply {cells values : List Value} {m₁ : Machine} {frames : List ScopeId}
    {action : Action}
    (h : Reaches library start ⟨scope, .eval (.sexpr cells), m, frames⟩)
    (hcells : Derives library scope (.cells cells) m values m₁)
    (haction : actionOf values = action) (hgive : ∀ v, action ≠ .give v) :
    ∃ function args, function.action args = action ∧
      Reaches library start ⟨scope, .apply function args, m₁, frames⟩ := by
  rcases actionOf_eq_give_or_application values with ⟨v, hv⟩ | ⟨function, arg, args, rfl, hargs⟩
  · exact absurd (haction.symm.trans hv) (hgive v)
  · refine ⟨function, arg :: args, ?_, h.tail (.apply hcells hargs)⟩
    rw [← haction, actionOf_application hargs]

/-- What a primitive operation is called for it was asked for by the operation. -/
theorem exists_request {function : Function} {args : List Value} {request : Request}
    (h : function.action args = .request request) (hgive : ∀ v, request ≠ .give v) :
    ∃ operation : Primitive, function = .primitive operation ∧
      operation.request args = .ok request := by
  cases function with
  | primitive operation =>
    refine ⟨operation, rfl, ?_⟩
    rw [Function.action, Primitive.action] at h
    split at h
    · exact absurd (Action.request.inj h).symm (hgive _)
    · rename_i hrequest
      rw [hrequest, Action.request.inj h]
  | closure c =>
    rw [Function.action, Closure.action] at h
    split at h
    · exact absurd (Action.request.inj h).symm (hgive _)
    · cases h
    · exact absurd (Action.request.inj h).symm (hgive _)

theorem exists_take {function : Function} {args body : List Value} {bound : Bindings}
    (h : function.action args = .enter bound body) :
    ∃ closure : Closure, function = .closure closure ∧ closure.body = body ∧
      closure.take args = .ok ([], bound) := by
  cases function with
  | primitive operation =>
    rw [Function.action, Primitive.action] at h
    split at h <;> cases h
  | closure c =>
    rw [Function.action, Closure.action] at h
    split at h
    · cases h
    · rename_i htake
      cases h
      exact ⟨c, rfl, rfl, htake⟩
    · cases h

/-- A form that asks for a file has it loaded. -/
theorem Holds.exists_load {cells values : List Value} {path : String} {m₁ : Machine}
    (h : Holds library start ⟨scope, .value (.sexpr cells), m⟩)
    (hcells : Derives library scope (.cells cells) m values m₁)
    (haction : actionOf values = .request (.load path)) :
    ∃ frames, Reaches library start ⟨scope, .load path, m₁, frames⟩ := by
  obtain ⟨frames, h⟩ := h
  obtain ⟨function, args, hfunction, h⟩ := h.apply hcells haction fun _ ↦ nofun
  obtain ⟨operation, rfl, hrequest⟩ := exists_request hfunction fun _ ↦ nofun
  exact ⟨frames, (h.tail .primitive).tail (.load hrequest)⟩

theorem Holds.of_makes {c c' : Call} (h : Holds library start c) (hmakes : c.Makes library c') :
    Holds library start c' := by
  cases hmakes with
  | cells =>
    obtain ⟨frames, h⟩ := h
    exact ⟨[], [], [], _, frames, by rwa [List.nil_append, List.append_nil], .noCells⟩
  | evaluate hcells haction =>
    obtain ⟨frames, h⟩ := h
    obtain ⟨function, args, hfunction, h⟩ := h.apply hcells haction fun _ ↦ nofun
    obtain ⟨operation, rfl, hrequest⟩ := exists_request hfunction fun _ ↦ nofun
    exact ⟨frames, (h.tail .primitive).tail (.evaluate hrequest)⟩
  | load hcells haction hread hforms =>
    obtain ⟨frames, h⟩ := h.exists_load hcells haction
    refine ⟨_, _, [], [], _, frames, h, hread, ?_, .noForms⟩
    rwa [List.nil_append, List.append_nil]
  | enter hcells haction =>
    obtain ⟨frames, h⟩ := h
    obtain ⟨function, args, hfunction, h⟩ := h.apply hcells haction fun _ ↦ nofun
    obtain ⟨closure, rfl, rfl, htake⟩ := exists_take hfunction
    exact ⟨_, h.tail (.body htake)⟩
  | firstCell =>
    obtain ⟨before, after, values, m₀, frames, h, hbefore⟩ := h
    rw [List.append_assoc] at h
    exact ⟨frames, h.tail (.cell hbefore)⟩
  | otherCells hv =>
    obtain ⟨before, after, values, m₀, frames, h, hbefore⟩ := h
    rw [List.append_cons] at h
    exact ⟨_, after, _, m₀, frames, h, hbefore.cells_snoc hv⟩
  | firstForm =>
    obtain ⟨path, outcome, before, after, m₀, frames, h, hread, hforms, hbefore⟩ := h
    rw [List.append_assoc] at hforms
    exact ⟨frames, h.tail (.form hread hforms hbefore)⟩
  | otherForms hv =>
    obtain ⟨path, outcome, before, after, m₀, frames, h, hread, hforms, hbefore⟩ := h
    rw [List.append_cons] at hforms
    exact ⟨path, outcome, _, after, m₀, frames, h, hread, hforms, hbefore.forms_snoc hv⟩

end Activation

/-- Induction on a derivation that is on the way, and whose parts are therefore on the way too. -/
theorem Derives.way_induction {library : Library} {start : Activation} {scope : ScopeId}
    {m m' : Machine} {motive : ScopeId → Task → Machine → List Value → Machine → Prop}
    (bound : ∀ {scope name v m}, m.store.lookup? scope name = some v →
      motive scope (.value (.symbol name)) m [v] m)
    (unbound : ∀ {scope name m}, m.store.lookup? scope name = none →
      motive scope (.value (.symbol name)) m [(EvalError.unboundSymbol name).toValue] m)
    (inert : ∀ {scope v m}, v.IsInert → motive scope (.value v) m [v] m)
    (sexpr : ∀ {scope cells values a m m₁ m'},
      Activation.Holds library start ⟨scope, .value (.sexpr cells), m⟩ →
      Derives library scope (.cells cells) m values m₁ → motive scope (.cells cells) m values m₁ →
      (actionOf values).ComesTo library (fun scope task m as m' ↦
        Derives library scope task m as m' ∧
          (Activation.Holds library start ⟨scope, task, m⟩ → motive scope task m as m'))
        scope m₁ a m' →
      motive scope (.value (.sexpr cells)) m [a] m')
    (noCells : ∀ {scope m}, motive scope (.cells []) m [] m)
    (cell : ∀ {scope v a vs values m m₁ m₂}, motive scope (.value v) m [a] m₁ →
      motive scope (.cells vs) m₁ values m₂ → motive scope (.cells (v :: vs)) m (a :: values) m₂)
    (noForms : ∀ {scope m}, motive scope (.forms []) m [] m)
    (form : ∀ {scope v a vs m m₁ m₂}, motive scope (.value v) m [a] m₁ →
      motive scope (.forms vs) (m₁.report a) [] m₂ → motive scope (.forms (v :: vs)) m [] m₂)
    {task : Task} {as : List Value} (h : Derives library scope task m as m')
    (hholds : Activation.Holds library start ⟨scope, task, m⟩) : motive scope task m as m' := by
  -- a part has to be derived for what comes after it to be on the way
  refine (h.action_induction (motive := fun scope task m as m' ↦
    Derives library scope task m as m' ∧
      (Activation.Holds library start ⟨scope, task, m⟩ → motive scope task m as m'))
    ?bound ?unbound ?inert ?sexpr ?noCells ?cell ?noForms ?form).2 hholds
  case bound => exact fun hlookup ↦ ⟨.bound hlookup, fun _ ↦ bound hlookup⟩
  case unbound => exact fun hlookup ↦ ⟨.unbound hlookup, fun _ ↦ unbound hlookup⟩
  case inert => exact fun hinert ↦ ⟨.inert hinert, fun _ ↦ inert hinert⟩
  case sexpr =>
    intro scope cells values a m m₁ m' hcells haction
    refine ⟨derives_sexpr_iff.mpr ⟨values, m₁, hcells.1, haction.mono And.left⟩, ?_⟩
    exact fun hholds ↦ sexpr hholds hcells.1 (hcells.2 (hholds.of_makes .cells)) haction
  case noCells => exact ⟨.noCells, fun _ ↦ noCells⟩
  case cell =>
    intro scope v a vs values m m₁ m₂ hv hvs
    refine ⟨.cell hv.1 hvs.1, fun hholds ↦ ?_⟩
    exact cell (hv.2 (hholds.of_makes .firstCell)) (hvs.2 (hholds.of_makes (.otherCells hv.1)))
  case noForms => exact ⟨.noForms, fun _ ↦ noForms⟩
  case form =>
    intro scope v a vs m m₁ m₂ hv hvs
    refine ⟨.form hv.1 hvs.1, fun hholds ↦ ?_⟩
    exact form (hv.2 (hholds.of_makes .firstForm)) (hvs.2 (hholds.of_makes (.otherForms hv.1)))

/-- Whatever is evaluated on the way to the result of a value is an activation on the way. -/
theorem Call.Reaches.exists_frames {library : Library} {scope scope' : ScopeId} {v v' : Value}
    {m m' : Machine} (h : Reaches library ⟨scope, .value v, m⟩ ⟨scope', .value v', m'⟩)
    (frames : List ScopeId) :
    ∃ frames', Activation.Reaches library ⟨scope, .eval v, m, frames⟩
      ⟨scope', .eval v', m', frames'⟩ := by
  have hholds : ∀ c, Reaches library ⟨scope, .value v, m⟩ c →
      Activation.Holds library ⟨scope, .eval v, m, frames⟩ c := by
    intro c h
    induction h with
    | refl => exact ⟨frames, .refl⟩
    | tail _ hmakes ih => exact ih.of_makes hmakes
  exact hholds _ h

/-! ## What activations keep -/

open Checked Value

section

variable {Q : Value → Prop} {library : Library} {act act' : Activation}

/-- The values that an activity is about have a property, and those handed to a function are
settled. -/
def Activity.Has (Q : Value → Prop) : Activity → Prop
  | eval v => Q v
  | apply function args => Q function.toValue ∧ ∀ v ∈ args, v.Settled ∧ Q v
  | call _ args => ∀ v ∈ args, v.Settled ∧ Q v
  | load _ => True

namespace Activation

/-- The values in the activity have a property, and so has everything bound in the store. -/
structure Has (Q : Value → Prop) (act : Activation) : Prop where
  activity : act.activity.Has Q
  allBound : act.machine.store.AllBound (Binds Q)

theorem Has.of_calls (hQ : Hereditary Q) (hfiles : library.Admits Q) (hact : act.Has Q)
    (h : Calls library act act') : act'.Has Q := by
  obtain ⟨hactivity, hstore⟩ := hact
  cases h with
  | cell hbefore =>
    obtain ⟨hfront, hback⟩ := List.forall_mem_append.mp (hQ.sexpr_iff.mp hactivity)
    exact ⟨hback _ List.mem_cons_self, (hbefore.isResult_and_allBound hQ hfiles hfront hstore).2⟩
  | @apply _ _ _ _ function _ _ _ hcells hargs =>
    obtain ⟨hvalues, hstore⟩ :=
      hcells.isResult_and_allBound hQ hfiles (hQ.sexpr_iff.mp hactivity) hstore
    obtain ⟨hfunction, hresults⟩ := List.forall_mem_cons.mp hvalues
    refine ⟨⟨?_, fun v hv ↦ (hresults v hv).of_isError_eq_false (hargs v hv)⟩, hstore⟩
    exact (hfunction.of_isError_eq_false (function.isError_toValue)).2
  | primitive => exact ⟨hactivity.2, hstore⟩
  | body htake =>
    obtain ⟨hclosure, hargs⟩ := hactivity
    obtain ⟨hformals, hbody, hbound⟩ := hQ.closure_iff.mp hclosure
    obtain ⟨-, hbound⟩ := gives_bindFormals hQ.hereditaryWith hformals hargs
      (forall_binds_iff.mp hbound) _ htake
    exact ⟨hQ.sexpr_iff.mpr hbody, hstore.push (forall_binds_iff.mpr hbound)⟩
  | evaluate hrequest =>
    have hcells := gives_request hQ.hereditaryWith hactivity _ _ hrequest
    exact ⟨hQ.sexpr_iff.mpr hcells, hstore⟩
  | load => exact ⟨trivial, hstore⟩
  | form hread hforms hbefore =>
    obtain ⟨hfront, hback⟩ := List.forall_mem_append.mp (hfiles _ _ _ hread hforms)
    exact ⟨hback _ List.mem_cons_self, (hbefore.isResult_and_allBound hQ hfiles hfront hstore).2⟩

/-- A property that values share with their parts is kept by all activations on the way. -/
theorem Has.of_reaches (hQ : Hereditary Q) (hfiles : library.Admits Q) (hact : act.Has Q)
    (h : Reaches library act act') : act'.Has Q := by
  induction h with
  | refl => exact hact
  | tail _ hcalls ih => exact ih.of_calls hQ hfiles hcalls

end Activation

end

end QuoteLisp
