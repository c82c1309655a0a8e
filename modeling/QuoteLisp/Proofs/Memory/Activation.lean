import QuoteLisp.Proofs.Memory.Simulation

/-!
# Activations in memory

What comes about in the course of an evaluation in memory are the activations of the evaluator with
linked values. Besides the frames they remember which values are waiting. One step after the other,
they go side by side with those of the evaluator, in both directions (`StandsFor.exists_calls`,
`StandsFor.exists_calls_of_calls`), and each ends when its counterpart ends, with the same outcome
but for links (`DoesAs`).

So the chain of scopes is in memory what it is for the evaluator. Moreover the closures that there
are at any time have scopes apart from the chain (`Apart`).

If closures have such scopes at the start, then there is an activation of the evaluator that the
start stands for, namely its plain form (`Housed.standsFor`), and its scope has the same chain
(`Housed.hasChain_unlink`). A fresh machine is its own plain form (`housed_start`).
-/

namespace QuoteLisp

open Run Store Value

/-! ## Linked activities -/

namespace Activity

/-- How often an activity works with a closure that is linked to the place. -/
def links (place : Option ScopeId) : Activity → Nat
  | eval v => v.links place
  | apply function args => function.toValue.links place + linksAll place args
  | call _ args => linksAll place args
  | load _ => 0

/-- The activity with what some scopes hold in place of the links to them. -/
def unlink (contents : ScopeId → Bindings) : Activity → Activity
  | eval v => .eval (v.unlink contents)
  | apply function args => .apply (function.unlink contents) (args.map (Value.unlink contents))
  | call operation args => .call operation (args.map (Value.unlink contents))
  | load path => .load path

variable {contents : ScopeId → Bindings} {activity : Activity} {args : List Value}

theorem exists_of_unlink_eq_sexpr {cells : List Value}
    (h : activity.unlink contents = .eval (.sexpr cells)) :
    ∃ ws, activity = .eval (.sexpr ws) ∧ ws.map (Value.unlink contents) = cells := by
  match activity, h with
  | .eval (.sexpr ws), h =>
    rw [unlink, unlink_sexpr] at h
    exact ⟨ws, rfl, Value.sexpr.inj (Activity.eval.inj h)⟩

theorem exists_of_unlink_eq_primitive {operation : Primitive}
    (h : activity.unlink contents = .apply (.primitive operation) args) :
    ∃ ws, activity = .apply (.primitive operation) ws ∧ ws.map (Value.unlink contents) = args := by
  match activity, h with
  | .apply (.primitive operation) ws, h =>
    obtain ⟨hfunction, hargs⟩ := Activity.apply.inj h
    cases hfunction
    exact ⟨ws, rfl, hargs⟩

theorem exists_of_unlink_eq_closure {closure : Closure}
    (h : activity.unlink contents = .apply (.closure closure) args) :
    ∃ linked ws, activity = .apply (.closure linked) ws ∧
      (Function.closure linked).unlink contents = .closure closure ∧
      ws.map (Value.unlink contents) = args := by
  match activity, h with
  | .apply (.closure linked) ws, h =>
    obtain ⟨hfunction, hargs⟩ := Activity.apply.inj h
    exact ⟨linked, ws, rfl, hfunction, hargs⟩

theorem exists_of_unlink_eq_call {operation : Primitive}
    (h : activity.unlink contents = .call operation args) :
    ∃ ws, activity = .call operation ws ∧ ws.map (Value.unlink contents) = args := by
  match activity, h with
  | .call operation' ws, h =>
    obtain ⟨hoperation, hargs⟩ := Activity.call.inj h
    exact ⟨ws, by rw [hoperation], hargs⟩

theorem exists_of_unlink_eq_load {path : String} (h : activity.unlink contents = .load path) :
    activity = .load path := by
  match activity, h with
  | .load _, h => exact h

end Activity

namespace Memory

/-! ## Activations -/

/-- An activation in memory. It remembers which values are waiting besides: those of the cells that
have been evaluated and the cells and forms whose turn has not come yet, of all forms and files that
are being evaluated. -/
structure Activation where
  scope : ScopeId
  activity : Activity
  machine : Machine
  frames : List ScopeId
  waiting : List Value

/-- Does in memory what the interpreter is busy with. -/
def run (library : Library) (fuel : Nat) (scope : ScopeId) : Activity → Run Value
  | .eval v => eval library fuel scope v
  | .apply function args => applyFunction library (eval library fuel) scope function args
  | .call operation args => callPrimitive library (eval library fuel) scope operation args
  | .load path => loadFile library (eval library fuel) scope path

namespace Activation

/-- How often closures besides those in the store are linked to the place. -/
def links (act : Activation) (place : Option ScopeId) : Nat :=
  act.activity.links place + linksAll place act.waiting

/-- The activation ends with the result `w` and the machine `μ'`. -/
def Ends (library : Library) (act : Activation) (w : Value) (μ' : Machine) : Prop :=
  ∃ fuel, Yields (Memory.run library fuel act.scope act.activity) act.machine w μ'

/-- The first activation goes on to the second directly. -/
inductive Calls (library : Library) : Activation → Activation → Prop
  | cell {scope : ScopeId} {before after values : List Value} {w : Value} {μ μ₁ : Machine}
      {frames : List ScopeId} {waiting : List Value} {fuel : Nat} :
      Yields (before.mapM (eval library fuel scope)) μ values μ₁ →
      Calls library ⟨scope, .eval (.sexpr (before ++ w :: after)), μ, frames, waiting⟩
        ⟨scope, .eval w, μ₁, frames, values ++ after ++ waiting⟩
  | apply {scope : ScopeId} {cells args : List Value} {arg : Value} {function : Function}
      {μ μ₁ : Machine} {frames : List ScopeId} {waiting : List Value} {fuel : Nat} :
      Yields (cells.mapM (eval library fuel scope)) μ (function.toValue :: arg :: args) μ₁ →
      (∀ w ∈ arg :: args, w.isError = false) →
      Calls library ⟨scope, .eval (.sexpr cells), μ, frames, waiting⟩
        ⟨scope, .apply function (arg :: args), μ₁, frames, waiting⟩
  | primitive {scope : ScopeId} {operation : Primitive} {args : List Value} {μ : Machine}
      {frames : List ScopeId} {waiting : List Value} :
      Calls library ⟨scope, .apply (.primitive operation) args, μ, frames, waiting⟩
        ⟨scope, .call operation args, μ, frames, waiting⟩
  /-- The scope of a closure that has an argument for every formal becomes the new frame. -/
  | body {scope own : ScopeId} {closure : Closure} {args : List Value} {bound : Bindings}
      {μ : Machine} {frames : List ScopeId} {waiting : List Value} :
      linked? closure.bound = some own →
      Closure.take { closure with bound := μ.store.bindings own } args = .ok ([], bound) →
      Calls library ⟨scope, .apply (.closure closure) args, μ, frames, waiting⟩
        ⟨own, .eval (.sexpr closure.body),
          { μ with store := (μ.store.setBindings own bound).setParent own scope },
          own :: frames, waiting⟩
  | evaluate {scope : ScopeId} {operation : Primitive} {args cells : List Value} {μ : Machine}
      {frames : List ScopeId} {waiting : List Value} :
      operation.request args = .ok (.evaluate cells) →
      Calls library ⟨scope, .call operation args, μ, frames, waiting⟩
        ⟨scope, .eval (.sexpr cells), μ, frames, waiting⟩
  | load {scope : ScopeId} {operation : Primitive} {args : List Value} {path : String}
      {μ : Machine} {frames : List ScopeId} {waiting : List Value} :
      operation.request args = .ok (.load path) →
      Calls library ⟨scope, .call operation args, μ, frames, waiting⟩
        ⟨scope, .load path, μ, frames, waiting⟩
  | form {scope : ScopeId} {path : String} {outcome : Except ReadError String}
      {before after : List Value} {w : Value} {μ μ₁ : Machine} {frames : List ScopeId}
      {waiting : List Value} {fuel : Nat} :
      library.read? path = some outcome → fileForms path outcome = .ok (before ++ w :: after) →
      Yields (before.forM (runForm (eval library fuel) scope)) μ () μ₁ →
      Calls library ⟨scope, .load path, μ, frames, waiting⟩
        ⟨scope, .eval w, μ₁, frames, after ++ waiting⟩

/-- The second activation is the first one or comes about on the way. -/
def Reaches (library : Library) : Activation → Activation → Prop :=
  Relation.ReflTransGen (Calls library)

/-- An activation in memory does with linked values what another one does with plain ones. -/
structure StandsFor (place : ScopeId → ScopeId) (contents : ScopeId → Bindings)
    (linked : Activation) (act : QuoteLisp.Activation) : Prop where
  mirrors : Mirrors place contents linked.links act.machine linked.machine
  activity_eq : linked.activity.unlink contents = act.activity
  scope_eq : linked.scope = place act.scope
  frames_eq : linked.frames = act.frames.map place

end Activation

variable {place : ScopeId → ScopeId} {contents : ScopeId → Bindings}
  {held : Option ScopeId → Nat} {m μ : Machine} {scope : ScopeId} {ids : List ScopeId}
  {library : Library}

/-! ## The same activities -/

/-- Whatever the interpreter is busy with comes to the same in memory. -/
theorem related_run (library : Library) (fuel : Nat) {activity : Activity}
    (hchain : m.store.HasChain scope ids)
    (h : Mirrors place contents (fun p ↦ activity.links p + held p) m μ) :
    Related (SameValue place contents held m)
      ((activity.unlink contents).run library fuel scope m)
      (run library fuel (place scope) activity μ) := by
  have hsim := simulates_eval library fuel
  cases activity with
  | eval w => exact hsim hchain h
  | apply function args => exact hsim.applyFunction hchain h
  | call operation args => exact hsim.callPrimitive hchain h
  | load path => exact hsim.loadFile hchain (h.mono fun p ↦ (Nat.zero_add _).ge) path

namespace Activation

variable {contents' : ScopeId → Bindings} {m' μ' : Machine} {linked linked' : Activation}
  {act act' : QuoteLisp.Activation} {waiting : List Value} {w : Value} {args : List Value}

/-- What an activation in memory stands for goes on to something that a next activation in memory
stands for. The scopes that were there before keep their places. -/
def GoesOnTo (place : ScopeId → ScopeId) (act : QuoteLisp.Activation) (linked' : Activation)
    (act' : QuoteLisp.Activation) : Prop :=
  ∃ place' contents', StandsFor place' contents' linked' act' ∧
    ∀ id < act.machine.store.nextId, place' id = place id

theorem mirrors_cells {frames : List ScopeId} {cells : List Value}
    (h : Mirrors place contents
      (links ⟨scope, .eval (.sexpr cells), μ', frames, waiting⟩) m μ) :
    Mirrors place contents (fun p ↦ linksAll p cells + linksAll p waiting) m μ :=
  h.mono fun p ↦ by rw [links, Activity.links, links_sexpr]

theorem goesOnTo_of_mirrors {frames : List ScopeId} (next : Activity)
    (h : Mirrors place contents (fun p ↦ next.links p + linksAll p waiting) m' μ') :
    GoesOnTo place act ⟨place scope, next, μ', frames.map place, waiting⟩
      ⟨scope, next.unlink contents, m', frames⟩ :=
  ⟨place, contents, ⟨h, rfl, rfl, rfl⟩, fun _ _ ↦ rfl⟩

theorem goesOnTo_apply {frames : List ScopeId} {function : Function} {arg : Value}
    (h : After place contents (fun p ↦ linksAll p waiting) m
      (linksAll · (function.toValue :: arg :: args)) contents' m' μ') :
    GoesOnTo place act
      ⟨place scope, .apply function (arg :: args), μ', frames.map place, waiting⟩
      ⟨scope, .apply (function.unlink contents')
        (arg.unlink contents' :: args.map (unlink contents')), m', frames⟩ :=
  goesOnTo_of_mirrors (.apply function (arg :: args)) <| h.mirrors.mono fun p ↦ by
    rw [Activity.links, linksAll_cons function.toValue]

theorem goesOnTo_call {frames : List ScopeId} {operation : Primitive}
    (h : Mirrors place contents
      (links ⟨scope, .apply (.primitive operation) args, μ, frames, waiting⟩) m μ) :
    GoesOnTo place act ⟨place scope, .call operation args, μ, frames.map place, waiting⟩
      ⟨scope, .call operation (args.map (unlink contents)), m, frames⟩ :=
  goesOnTo_of_mirrors (.call operation args) <| h.mono fun _ ↦
    Nat.add_le_add_right (Nat.le_add_left _ _) _

theorem goesOnTo_evaluate {frames : List ScopeId} {operation : Primitive} {cells : List Value}
    (hrequest : operation.request args = .ok (.evaluate cells))
    (h : Mirrors place contents (links ⟨scope, .call operation args, μ, frames, waiting⟩) m μ) :
    GoesOnTo place act ⟨place scope, .eval (.sexpr cells), μ, frames.map place, waiting⟩
      ⟨scope, .eval (.sexpr (cells.map (unlink contents))), m, frames⟩ := by
  rw [← unlink_sexpr]
  refine goesOnTo_of_mirrors (.eval (.sexpr cells)) (h.mono fun p ↦ ?_)
  have hle : linksAll p cells ≤ linksAll p args := by
    refine (operation.links_request_le args _ hrequest).resolve_right ?_
    rintro ⟨formals, body, heq, -⟩
    cases heq
  rw [Activity.links, links_sexpr]
  exact Nat.add_le_add_right hle _

theorem goesOnTo_load {frames : List ScopeId} {operation : Primitive} {path : String}
    (h : Mirrors place contents (links ⟨scope, .call operation args, μ, frames, waiting⟩) m μ) :
    GoesOnTo place act ⟨place scope, .load path, μ, frames.map place, waiting⟩
      ⟨scope, .load path, m, frames⟩ :=
  goesOnTo_of_mirrors (.load path) <| h.mono fun _ ↦
    Nat.add_le_add_right (Nat.zero_le _) _

/-- A value that was waiting is evaluated next. -/
theorem goesOnTo_of_after {frames : List ScopeId} {got : Option ScopeId → Nat}
    {later : List Value}
    (h : After place contents (fun p ↦ w.links p + linksAll p later) m got contents' m' μ')
    (hwaiting : ∀ p, linksAll p waiting ≤ got p + linksAll p later) :
    GoesOnTo place act ⟨place scope, .eval w, μ', frames.map place, waiting⟩
      ⟨scope, .eval (w.unlink contents), m', frames⟩ := by
  rw [← h.unlink_eq]
  refine goesOnTo_of_mirrors (.eval w) (h.mirrors.mono fun p ↦ ?_)
  have := hwaiting p
  rw [Activity.links]
  omega

/-- The scope of a closure becomes the frame in which its body is evaluated. -/
theorem goesOnTo_body {frames : List ScopeId} {closure : Closure} {own : ScopeId}
    {bound : Bindings} {activity : Activity} (hown : linked? closure.bound = some own)
    (htake : Closure.take { closure with bound := μ.store.bindings own } args = .ok ([], bound))
    (hchain : m.store.HasChain scope (frames ++ ids))
    (h : Mirrors place contents (fun p ↦ (Function.closure closure).toValue.links p +
      linksAll p args + linksAll p waiting) m μ) :
    GoesOnTo place ⟨scope, activity, m, frames⟩
      ⟨own, .eval (.sexpr closure.body),
        { μ with store := (μ.store.setBindings own bound).setParent own (place scope) },
        own :: frames.map place, waiting⟩
      ⟨m.store.nextId, .eval (.sexpr (closure.body.map (unlink contents))),
        m.enter (bound.unlink contents) scope, m.store.nextId :: frames⟩ := by
  have hplace (id : ScopeId) (hid : id < m.store.nextId) :
      Function.update place m.store.nextId own id = place id :=
    Function.update_of_ne (Nat.ne_of_lt hid) _ _
  have hframes : frames.map (Function.update place m.store.nextId own) = frames.map place :=
    List.map_congr_left fun id hid ↦
      hplace id (hchain.lt_nextId_of_mem (List.mem_append_left ids hid))
  refine ⟨_, contents, ⟨h.enter hown htake hchain, ?_, ?_, ?_⟩, hplace⟩
  · rw [Activity.unlink, unlink_sexpr]
  · dsimp only
    rw [Function.update_self]
  · rw [List.map_cons, Function.update_self, hframes]

section

variable {frames : List ScopeId} (library) (fuel : Nat) (hchain : m.store.HasChain scope ids)
include hchain

/-- Once the cells in front have been evaluated, it is the next one's turn. -/
theorem related_cell {before after : List Value}
    (h : Mirrors place contents
      (fun p ↦ linksAll p (before ++ w :: after) + linksAll p waiting) m μ) :
    Related (fun _ m₁ values μ₁ ↦ GoesOnTo place act
        ⟨place scope, .eval w, μ₁, frames.map place, values ++ after ++ waiting⟩
        ⟨scope, .eval (w.unlink contents), m₁, frames⟩)
      ((Task.cells (before.map (unlink contents))).run library fuel scope m)
      (before.mapM (eval library fuel (place scope)) μ) := by
  have hbefore : Mirrors place contents
      (fun p ↦ linksAll p before + (w.links p + linksAll p (after ++ waiting))) m μ :=
    h.mono fun p ↦ by
      simp only [linksAll_append, linksAll_cons]
      omega
  refine ((simulates_eval library fuel).mapM hchain hbefore).mono ?_
  rintro _ m₁ values μ₁ ⟨contents₁, hafter, -⟩
  exact goesOnTo_of_after hafter fun p ↦ by rw [List.append_assoc, linksAll_append]

theorem related_cells {cells : List Value}
    (h : Mirrors place contents (fun p ↦ linksAll p cells + held p) m μ) :
    Related (SameValues place contents held m)
      ((Task.cells (cells.map (unlink contents))).run library fuel scope m)
      (cells.mapM (eval library fuel (place scope)) μ) :=
  (simulates_eval library fuel).mapM hchain h

/-- Once the forms in front have been run, it is the next one's turn. -/
theorem related_form {before after : List Value}
    (hforms : ∀ p, linksAll p (before ++ w :: after) = 0)
    (h : Mirrors place contents (fun p ↦ 0 + linksAll p waiting) m μ) :
    Related (fun _ m₁ _ μ₁ ↦ GoesOnTo place act
        ⟨place scope, .eval w, μ₁, frames.map place, after ++ waiting⟩
        ⟨scope, .eval w, m₁, frames⟩)
      (before.forM (runForm (QuoteLisp.eval library fuel) scope) m)
      (before.forM (runForm (eval library fuel) (place scope)) μ) := by
  simp only [linksAll_append, linksAll_cons, Nat.add_eq_zero_iff] at hforms
  have hbefore : Mirrors place contents
      (fun p ↦ linksAll p before + (w.links p + linksAll p (after ++ waiting))) m μ :=
    h.mono fun p ↦ by
      rw [linksAll_append, (hforms p).1, (hforms p).2.1, (hforms p).2.2]
      omega
  have hrun := (simulates_eval library fuel).forM_runForm hchain hbefore
  rw [map_unlink_eq_self before fun p ↦ (hforms p).1] at hrun
  refine hrun.mono ?_
  rintro _ m₁ _ μ₁ ⟨contents₁, hafter⟩
  have hgoes : GoesOnTo place act ⟨place scope, .eval w, μ₁, frames.map place, after ++ waiting⟩
      ⟨scope, .eval (w.unlink contents), m₁, frames⟩ :=
    goesOnTo_of_after hafter fun p ↦ Nat.le_add_left _ _
  rwa [unlink_eq_self w fun p ↦ (hforms p).2.1] at hgoes

end

/-- Whatever an activation goes on to, the one in memory that stands for it goes on to something
that stands for that. -/
theorem StandsFor.exists_calls (h : StandsFor place contents linked act)
    (hchain : act.machine.store.HasChain act.scope (act.frames ++ ids))
    (hcalls : act.Calls library act') :
    ∃ linked', linked.Calls library linked' ∧ GoesOnTo place act linked' act' := by
  obtain ⟨scope, activity, μ, frames, waiting⟩ := linked
  obtain ⟨hmirrors, hactivity, hscope, hframes⟩ := h
  dsimp only at hmirrors hactivity hscope hframes
  subst hscope hframes
  cases hcalls with
  | cell hbefore =>
    obtain ⟨ws, rfl, hws⟩ := Activity.exists_of_unlink_eq_sexpr hactivity
    obtain ⟨before, rest, rfl, rfl, hrest⟩ := List.map_eq_append_iff.mp hws
    obtain ⟨w, after, rfl, rfl, rfl⟩ := List.map_eq_cons_iff.mp hrest
    obtain ⟨fuel, hrun⟩ := derives_iff.mp hbefore
    obtain ⟨values, μ₁, hmemory, hgoes⟩ :=
      (related_cell library fuel hchain (mirrors_cells hmirrors)).exists_right hrun
    exact ⟨_, .cell hmemory, hgoes⟩
  | apply hcells hargs =>
    obtain ⟨ws, rfl, rfl⟩ := Activity.exists_of_unlink_eq_sexpr hactivity
    obtain ⟨fuel, hrun⟩ := derives_iff.mp hcells
    obtain ⟨values, μ₁, hmemory, contents₁, hafter, hvalues⟩ :=
      (related_cells library fuel hchain (mirrors_cells hmirrors)).exists_right hrun
    obtain ⟨f, rest, rfl, hf, hrest⟩ := List.map_eq_cons_iff.mp hvalues
    obtain ⟨arg, args, rfl, rfl, rfl⟩ := List.map_eq_cons_iff.mp hrest
    obtain ⟨function, rfl, rfl⟩ := exists_function_of_unlink_eq hf
    have herrors : ∀ w ∈ arg :: args, w.isError = false := fun w hw ↦
      isError_unlink.symm.trans (hargs _ (List.mem_map_of_mem hw))
    exact ⟨_, .apply hmemory herrors, goesOnTo_apply hafter⟩
  | primitive =>
    obtain ⟨ws, rfl, rfl⟩ := Activity.exists_of_unlink_eq_primitive hactivity
    exact ⟨_, .primitive, goesOnTo_call hmirrors⟩
  | body htake =>
    obtain ⟨closure, ws, rfl, hclosure, rfl⟩ := Activity.exists_of_unlink_eq_closure hactivity
    obtain ⟨own, hown⟩ := hmirrors.exists_own
    rw [Function.unlink, hown, Option.elim_some] at hclosure
    obtain rfl := Function.closure.inj hclosure
    rw [hmirrors.take_eq hown] at htake
    rcases hmemory : Closure.take { closure with bound := μ.store.bindings own } ws with
      cause | ⟨left, bound⟩
    · rw [hmemory] at htake
      cases htake
    · rw [hmemory] at htake
      obtain ⟨rfl, rfl⟩ := Prod.mk.inj (Except.ok.inj htake)
      exact ⟨_, .body hown hmemory, goesOnTo_body hown hmemory hchain hmirrors⟩
  | evaluate hrequest =>
    obtain ⟨ws, rfl, rfl⟩ := Activity.exists_of_unlink_eq_call hactivity
    obtain ⟨wanted, hwanted, heq⟩ := Primitive.exists_request_of_unlink hrequest
    cases wanted with
    | evaluate cells =>
      obtain rfl := Request.evaluate.inj heq
      exact ⟨_, .evaluate hwanted, goesOnTo_evaluate hwanted hmirrors⟩
    | _ => cases heq
  | load hrequest =>
    obtain ⟨ws, rfl, rfl⟩ := Activity.exists_of_unlink_eq_call hactivity
    obtain ⟨wanted, hwanted, heq⟩ := Primitive.exists_request_of_unlink hrequest
    cases wanted with
    | load path =>
      obtain rfl := Request.load.inj heq
      exact ⟨_, .load hwanted, goesOnTo_load hmirrors⟩
    | _ => cases heq
  | form hread hforms hbefore =>
    obtain rfl := Activity.exists_of_unlink_eq_load hactivity
    obtain ⟨fuel, hrun⟩ := derives_iff.mp hbefore
    obtain ⟨-, hrun⟩ := Task.yields_run_forms_iff.mp hrun
    obtain ⟨_, μ₁, hmemory, hgoes⟩ :=
      (related_form library fuel hchain (linksAll_fileForms hforms) hmirrors).exists_right hrun
    exact ⟨_, .form hread hforms hmemory, hgoes⟩

/-- Whatever an activation in memory goes on to stands for something that the one it stands for goes
on to. -/
theorem StandsFor.exists_calls_of_calls (h : StandsFor place contents linked act)
    (hchain : act.machine.store.HasChain act.scope (act.frames ++ ids))
    (hcalls : linked.Calls library linked') :
    ∃ act', act.Calls library act' ∧ GoesOnTo place act linked' act' := by
  obtain ⟨scope, activity, m, frames⟩ := act
  obtain ⟨scope', linked, μ, frames', waiting⟩ := linked
  obtain ⟨hmirrors, hactivity, hscope, hframes⟩ := h
  dsimp only at hmirrors hactivity hscope hframes hchain
  subst hactivity hscope hframes
  cases hcalls with
  | @cell _ _ _ _ _ _ _ _ _ fuel hmemory =>
    rw [Activity.unlink, unlink_sexpr, List.map_append, List.map_cons]
    obtain ⟨values, m₁, hrun, hgoes⟩ :=
      (related_cell library fuel hchain (mirrors_cells hmirrors)).exists_left hmemory
    exact ⟨_, .cell (derives_iff.mpr ⟨fuel, hrun⟩), hgoes⟩
  | @apply _ _ _ _ _ _ _ _ _ fuel hmemory hargs =>
    rw [Activity.unlink, unlink_sexpr]
    obtain ⟨values, m₁, hrun, contents₁, hafter, rfl⟩ :=
      (related_cells library fuel hchain (mirrors_cells hmirrors)).exists_left hmemory
    rw [List.map_cons, List.map_cons, unlink_toValue] at hrun
    refine ⟨_, .apply (derives_iff.mpr ⟨fuel, hrun⟩) ?_, goesOnTo_apply hafter⟩
    rw [← List.map_cons]
    intro v hv
    obtain ⟨w, hw, rfl⟩ := List.mem_map.mp hv
    exact isError_unlink.trans (hargs w hw)
  | primitive => exact ⟨_, .primitive, goesOnTo_call hmirrors⟩
  | body hown htake =>
    refine ⟨_, ?_, goesOnTo_body hown htake hchain hmirrors⟩
    rw [Activity.unlink, Function.unlink, hown, Option.elim_some]
    refine .body ?_
    rw [hmirrors.take_eq hown, htake]
    rfl
  | evaluate hrequest =>
    refine ⟨_, .evaluate ?_, goesOnTo_evaluate hrequest hmirrors⟩
    rw [Primitive.request_unlink, hrequest]
    rfl
  | load hrequest =>
    refine ⟨_, .load ?_, goesOnTo_load hmirrors⟩
    rw [Primitive.request_unlink, hrequest]
    rfl
  | @form _ _ _ _ _ _ _ _ _ _ fuel hread hforms hmemory =>
    obtain ⟨_, m₁, hrun, hgoes⟩ :=
      (related_form library fuel hchain (linksAll_fileForms hforms) hmirrors).exists_left hmemory
    have hbefore := derives_iff.mpr ⟨fuel, Task.yields_run_forms_iff.mpr ⟨rfl, hrun⟩⟩
    exact ⟨_, .form hread hforms hbefore, hgoes⟩

/-! ## The same outcomes -/

/-- An activation in memory stands for another one and ends when that ends, with the same result and
the same effects but for links. -/
structure DoesAs (library : Library) (place : ScopeId → ScopeId) (contents : ScopeId → Bindings)
    (linked : Activation) (act : QuoteLisp.Activation) : Prop
    extends StandsFor place contents linked act where
  exists_ends (a : Value) (m' : Machine) : act.Ends library a m' →
    ∃ w μ', linked.Ends library w μ' ∧
      SameValue place contents (linksAll · linked.waiting) act.machine a m' w μ'
  exists_ends_of_ends (w : Value) (μ' : Machine) : linked.Ends library w μ' →
    ∃ a m', act.Ends library a m' ∧
      SameValue place contents (linksAll · linked.waiting) act.machine a m' w μ'

theorem StandsFor.doesAs (h : StandsFor place contents linked act)
    (hchain : act.machine.store.HasChain act.scope ids) (library : Library) :
    DoesAs library place contents linked act := by
  have hrun (fuel : Nat) := related_run library fuel hchain h.mirrors
  rw [h.activity_eq, ← h.scope_eq] at hrun
  refine ⟨h, ?_, ?_⟩
  · rintro a m' ⟨fuel, hends⟩
    obtain ⟨w, μ', hmemory, hsame⟩ := (hrun fuel).exists_right hends
    exact ⟨w, μ', ⟨fuel, hmemory⟩, hsame⟩
  · rintro w μ' ⟨fuel, hends⟩
    obtain ⟨a, m', hplain, hsame⟩ := (hrun fuel).exists_left hends
    exact ⟨a, m', ⟨fuel, hplain⟩, hsame⟩

/-- In memory the scope of an activation has the chain `ids`. Every closure that is bound, worked
with or waiting has a scope of its own, which is not on this chain. When the activation ends, the
chain is there, and the same holds with its result. -/
structure Apart (library : Library) (ids : List ScopeId) (act : Activation) : Prop where
  hasChain : act.machine.store.HasChain act.scope ids
  housesApart : act.machine.store.HousesApart act.links ids
  hasChain_of_ends (w : Value) (μ' : Machine) : act.Ends library w μ' →
    μ'.store.HasChain act.scope ids
  housesApart_of_ends (w : Value) (μ' : Machine) : act.Ends library w μ' →
    μ'.store.HousesApart (fun p ↦ w.links p + linksAll p act.waiting) ids

theorem DoesAs.apart (h : DoesAs library place contents linked act)
    (hchain : act.machine.store.HasChain act.scope ids) : linked.Apart library (ids.map place) := by
  have hafter (w : Value) (μ' : Machine) (hends : linked.Ends library w μ') :
      ∃ (contents' : ScopeId → Bindings) (m' : Machine), m'.store.HasChain act.scope ids ∧
        Represents place contents' (fun p ↦ w.links p + linksAll p linked.waiting) m'.store
          μ'.store := by
    obtain ⟨a, m', -, contents', hafter, -⟩ := h.exists_ends_of_ends w μ' hends
    exact ⟨contents', m', hafter.changesOnly.hasChain hchain, hafter.mirrors.represents⟩
  refine ⟨?_, h.mirrors.represents.housesApart hchain, fun w μ' hends ↦ ?_, fun w μ' hends ↦ ?_⟩
  · rw [h.scope_eq]
    exact h.mirrors.represents.hasChain hchain
  · obtain ⟨contents', m', hchain', hrepresents⟩ := hafter w μ' hends
    rw [h.scope_eq]
    exact hrepresents.hasChain hchain'
  · obtain ⟨contents', m', hchain', hrepresents⟩ := hafter w μ' hends
    exact hrepresents.housesApart hchain'

/-! ## The plain form of an activation -/

/-- The activation with plain values. Scopes of closures are no longer scopes of the store. -/
def unlink (contents : ScopeId → Bindings) (linked : Activation) : QuoteLisp.Activation :=
  ⟨linked.scope, linked.activity.unlink contents,
    ⟨linked.machine.store.unlinked contents linked.links, linked.machine.output⟩, linked.frames⟩

/-- Every closure that is bound, worked with or waiting has a scope of its own without a parent,
which is not on the chain `ids`. What these scopes hold is given by `contents`, and all links of
scopes lead to places of the store. -/
structure Housed (contents : ScopeId → Bindings) (ids : List ScopeId) (linked : Activation) : Prop
    where
  housesApart : linked.machine.store.HousesApart linked.links ids
  contents_eq (id : ScopeId) : 0 < linked.machine.store.links (some id) + linked.links (some id) →
    contents id = (linked.machine.store.bindings id).unlink contents
  parent_lt (id : ScopeId) (scope : Scope) : linked.machine.store.scope? id = some scope →
    ∀ parent ∈ scope.parent, parent < linked.machine.store.nextId

/-- In a fresh machine there are no closures yet, and a value without closures is its own plain
form. -/
theorem housed_start {v : Value} (hv : ∀ p, v.links p = 0) (output : Output)
    (contents : ScopeId → Bindings) (ids : List ScopeId) :
    Housed contents ids ⟨globalScope, .eval v, .start output, [], []⟩ ∧
      unlink contents ⟨globalScope, .eval v, .start output, [], []⟩
        = ⟨globalScope, .eval v, .start output, []⟩ := by
  have hnone (p : Option ScopeId) : (Machine.start output).store.links p +
      links ⟨globalScope, .eval v, .start output, [], []⟩ p = 0 := by
    have hstore : (Machine.start output).store.links p = 0 :=
      links_eq_zero_of_allBound (allBound_start (fun _ ↦ rfl) output)
    rw [hstore, links, Activity.links, hv, linksAll_nil]
  refine ⟨⟨⟨⟨hnone none, fun id ↦ (hnone _).le.trans (Nat.zero_le 1), fun id hid ↦ ?_⟩,
    fun id hid ↦ ?_⟩, fun id hid ↦ ?_, ?_⟩, ?_⟩
  · exact absurd (hnone _) (Nat.ne_of_gt hid)
  · exact absurd (hnone _) (Nat.ne_of_gt hid)
  · exact absurd (hnone _) (Nat.ne_of_gt hid)
  · intro id scope hscope
    change ((⟨#[]⟩ : Store).push ⟨initialBindings, none⟩).scope? id = some scope at hscope
    rcases scope?_push_eq_some hscope with ⟨-, rfl⟩ | hscope
    · exact fun _ ↦ nofun
    · rw [scope?, Array.getElem?_empty] at hscope
      cases hscope
  · rw [unlink, unlinked_eq_self hnone, Activity.unlink, unlink_eq_self v hv]

/-- An activation in memory stands for its plain form. -/
theorem Housed.standsFor (h : linked.Housed contents ids) :
    StandsFor (fun id ↦ id) contents linked (linked.unlink contents) where
  mirrors := ⟨represents_unlinked h.housesApart.toHouses h.contents_eq h.parent_lt, rfl⟩
  activity_eq := rfl
  scope_eq := rfl
  frames_eq := (List.map_id' _).symm

/-- The plain form starts in a scope with the same chain. -/
theorem Housed.hasChain_unlink (h : linked.Housed contents ids)
    (hchain : linked.machine.store.HasChain linked.scope ids) :
    (linked.unlink contents).machine.store.HasChain (linked.unlink contents).scope ids :=
  h.housesApart.hasChain_unlinked hchain contents

end Activation

end Memory

end QuoteLisp
