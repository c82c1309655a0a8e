import QuoteLisp.Proofs.Evaluation.Failure
import QuoteLisp.Proofs.Evaluation.Writing

/-!
# An interpreter in use

Whoever holds an interpreter has it evaluate values, apply functions, call primitive operations and
load files, and makes, links, reads and changes scopes in between. A `History` is any number of
these things, each with the machine before it, the reply and the machine after it.

Nothing in a history depends on the output (`History.exists_on_output`). If the output takes lines,
lines are only added to it, and they come in the order of evaluation. What is on the way of an
activity has written its lines between its beginning and its end
(`Activation.Reaches.exists_ends_and_growsTo`), and of two things on the way neither of which is a
part of the other, one ends before the other begins (`Activation.Reaches.reaches_or_endsBefore`).
-/

namespace QuoteLisp

/-! ## Outputs that grow -/

namespace Output

/-- Lines have been written in between. -/
def GrowsTo (output output' : Output) : Prop :=
  ∃ lines, output' = output.writeAll lines

variable {output output' output'' : Output}

theorem GrowsTo.refl (output : Output) : output.GrowsTo output := ⟨[], rfl⟩

theorem GrowsTo.trans (h : output.GrowsTo output') (h' : output'.GrowsTo output'') :
    output.GrowsTo output'' := by
  obtain ⟨lines, rfl⟩ := h
  obtain ⟨more, rfl⟩ := h'
  exact ⟨lines ++ more, (output.writeAll_append lines more).symm⟩

theorem accepts_writeAll (output : Output) (lines : List String) :
    (output.writeAll lines).accepts = output.accepts := by
  induction lines generalizing output with
  | nil => rfl
  | cons line lines ih =>
    refine (ih (output.write line)).trans ?_
    rw [write]
    split <;> rfl

/-- What an output has taken stays at the beginning of its lines. -/
theorem GrowsTo.lines_isPrefix (h : output.GrowsTo output') (haccepts : output.accepts = true) :
    output.lines.toList <+: output'.lines.toList := by
  obtain ⟨lines, rfl⟩ := h
  exact ⟨lines, (toList_lines_writeAll haccepts lines).symm⟩

theorem GrowsTo.accepts_eq (h : output.GrowsTo output') : output'.accepts = output.accepts := by
  obtain ⟨lines, rfl⟩ := h
  exact output.accepts_writeAll lines

end Output

/-- The lines written so far. -/
def Machine.lines (m : Machine) : List String :=
  m.output.lines.toList

/-! ## Activities on outputs -/

variable {library : Library} {scope : ScopeId} {m m' m₁ : Machine} {a b : Value}

theorem Derives.growsTo {task : Task} {as : List Value} (h : Derives library scope task m as m') :
    m.output.GrowsTo m'.output := by
  obtain ⟨written, store', -, rfl⟩ := h.exists_writes
  exact ⟨written, rfl⟩

theorem Machine.report_growsTo (m : Machine) (result : Value) :
    m.output.GrowsTo (m.report result).output := by
  rw [Machine.report_eq_after]
  exact ⟨result.complaint, rfl⟩

/-- What comes of an action, it comes to on every output. -/
theorem Action.ComesTo.exists_on_outputs {action : Action}
    (h : action.ComesTo library (Derives library) scope m a m') :
    ∃ written store', m' = m.after store' written ∧ ∀ output,
      action.ComesTo library (Derives library) scope ⟨m.store, output⟩ a
        ⟨store', output.writeAll written⟩ :=
  (h.mono fun h ↦ h.exists_writes).exists_after

theorem Action.ComesTo.growsTo {action : Action}
    (h : action.ComesTo library (Derives library) scope m a m') :
    m.output.GrowsTo m'.output := by
  obtain ⟨written, store', rfl, -⟩ := h.exists_on_outputs
  exact ⟨written, rfl⟩

/-- An activity that ends on one output ends alike on all of them. -/
theorem Activity.Ends.exists_on_outputs {activity : Activity}
    (h : activity.Ends library scope m a m') :
    ∃ written store', m' = m.after store' written ∧ ∀ output,
      activity.Ends library scope ⟨m.store, output⟩ a ⟨store', output.writeAll written⟩ := by
  cases activity with
  | eval v =>
    obtain ⟨written, store', hwrites, rfl⟩ := (ends_eval_iff.mp h).exists_writes
    exact ⟨written, store', rfl, fun output ↦ ends_eval_iff.mpr (hwrites output)⟩
  | apply function args =>
    obtain ⟨written, store', hm, hon⟩ := (ends_apply_iff.mp h).exists_on_outputs
    exact ⟨written, store', hm, fun output ↦ ends_apply_iff.mpr (hon output)⟩
  | call operation args =>
    obtain ⟨written, store', hm, hon⟩ := (ends_call_iff.mp h).exists_on_outputs
    exact ⟨written, store', hm, fun output ↦ ends_call_iff.mpr (hon output)⟩
  | load path =>
    obtain ⟨written, store', hm, hon⟩ := (ends_load_iff.mp h).exists_on_outputs
    exact ⟨written, store', hm, fun output ↦ ends_load_iff.mpr (hon output)⟩

theorem Activity.Ends.growsTo {activity : Activity} (h : activity.Ends library scope m a m') :
    m.output.GrowsTo m'.output := by
  obtain ⟨written, store', rfl, -⟩ := h.exists_on_outputs
  exact ⟨written, rfl⟩

/-- Printing writes one line, the texts of the arguments with spaces in between. -/
theorem Activity.ends_print_iff {args : List Value} :
    (call .print args).Ends library scope m a m' ↔
      a = .unit ∧ m' = m.emit (String.ofList (spaced (args.map Value.chars))) := by
  rw [ends_call_iff, Primitive.action_of_request rfl]
  constructor
  · rintro (_ | _)
    exact ⟨rfl, rfl⟩
  · rintro ⟨rfl, rfl⟩
    exact .print

/-- Printing a scope writes one line for each of its own bindings, in order of name. -/
theorem Activity.ends_printScope_iff {args : List Value} :
    (call .printScope args).Ends library scope m a m' ↔
      a = .unit ∧ m' = m.emitAll (m.store.bindings scope).lines := by
  rw [ends_call_iff, Primitive.action_of_request rfl]
  constructor
  · rintro (_ | _)
    exact ⟨rfl, rfl⟩
  · rintro ⟨rfl, rfl⟩
    exact .printScope

/-! ## The order of what is written -/

namespace Activation

variable {act act' start : Activation}

/-- An activation begins when what comes before it has been written. -/
theorem Calls.growsTo (h : act.Calls library act') :
    act.machine.output.GrowsTo act'.machine.output := by
  cases h with
  | cell hbefore => exact hbefore.growsTo
  | apply hcells => exact hcells.growsTo
  | form _ _ hbefore => exact hbefore.growsTo
  | primitive | body | evaluate | load => exact .refl _

theorem Reaches.growsTo (h : start.Reaches library act) :
    start.machine.output.GrowsTo act.machine.output := by
  induction h with
  | refl => exact .refl _
  | tail _ hcalls ih => exact ih.trans hcalls.growsTo

/-- When an activation ends, whatever it goes on to directly has ended before, and what is written
in between comes after what that has written. In the course of loading a file, a form that has
failed is reported first. -/
theorem Calls.exists_ends_and_growsTo (hcalls : act.Calls library act')
    (h : act.Ends library a m') :
    ∃ b m₁, act'.Ends library b m₁ ∧ m₁.output.GrowsTo m'.output ∧
      ∀ path, act.activity = .load path → (m₁.report b).output.GrowsTo m'.output := by
  obtain ⟨b, m₁, hends, ⟨hload, -, heq⟩ | ⟨_, _, _, _, _, hact, -, -, hothers, haction⟩ |
    ⟨_, _, -, hothers⟩⟩ := hcalls.exists_ends_cases h
  · exact ⟨b, m₁, hends, heq ▸ .refl _, fun path hact ↦ absurd hact (hload path)⟩
  · refine ⟨b, m₁, hends, hothers.growsTo.trans haction.growsTo, fun path hload ↦ ?_⟩
    cases hact.symm.trans hload
  · exact ⟨b, m₁, hends, (m₁.report_growsTo b).trans hothers.growsTo, fun _ _ ↦ hothers.growsTo⟩

/-- Everything on the way of an activation that ends, ends, and what it has written is followed by
what is written afterwards. -/
theorem Reaches.exists_ends_and_growsTo (h : start.Reaches library act)
    (hstart : start.Ends library a m') :
    ∃ b m₁, act.Ends library b m₁ ∧ m₁.output.GrowsTo m'.output := by
  induction h using Relation.ReflTransGen.head_induction_on generalizing a m' with
  | refl => exact ⟨a, m', hstart, .refl _⟩
  | head hcalls _ ih =>
    obtain ⟨_, _, hends, hgrows, -⟩ := hcalls.exists_ends_and_growsTo hstart
    obtain ⟨b, m₁, hact, hgrows'⟩ := ih hends
    exact ⟨b, m₁, hact, hgrows'.trans hgrows⟩

/-- The first activation ends before the second one begins. -/
def EndsBefore (library : Library) (act act' : Activation) : Prop :=
  ∃ b m₁, act.Ends library b m₁ ∧ m₁.output.GrowsTo act'.machine.output

/-- What ends before something ends before everything on the way of that, and so does everything on
the way of the former. -/
theorem EndsBefore.of_reaches {start' : Activation} (h : start.EndsBefore library start')
    (hact : start.Reaches library act) (hact' : start'.Reaches library act') :
    act.EndsBefore library act' := by
  obtain ⟨_, _, hends, hgrows⟩ := h
  obtain ⟨b, m₁, hends, hgrows'⟩ := hact.exists_ends_and_growsTo hends
  exact ⟨b, m₁, hends, (hgrows'.trans hgrows).trans hact'.growsTo⟩

/-- A cell has a value before any cell after it is evaluated. -/
theorem endsBefore_of_cells {before after values values' : List Value} {v : Value}
    {m₂ : Machine} {frames : List ScopeId}
    (hbefore : Derives library scope (.cells before) m values m₁)
    (h : Derives library scope (.cells (before ++ v :: after)) m values' m₂)
    (hact : act.machine = m₂) : EndsBefore library ⟨scope, .eval v, m₁, frames⟩ act := by
  obtain ⟨_, _, _, -, hfront, hback⟩ := derives_cells_append_iff.mp h
  obtain ⟨-, rfl⟩ := hfront.unique hbefore
  cases hback with
  | cell hv hothers => exact ⟨_, _, Activity.ends_eval_iff.mpr hv, hact ▸ hothers.growsTo⟩

/-- A form of a file has a result before any form after it is evaluated. -/
theorem endsBefore_of_forms {before after : List Value} {v : Value} {m₂ : Machine}
    {frames : List ScopeId} (hbefore : Derives library scope (.forms before) m [] m₁)
    (h : Derives library scope (.forms (before ++ v :: after)) m [] m₂)
    (hact : act.machine = m₂) : EndsBefore library ⟨scope, .eval v, m₁, frames⟩ act := by
  obtain ⟨_, hfront, hback⟩ := derives_forms_append_iff.mp h
  obtain ⟨-, rfl⟩ := hfront.unique hbefore
  cases hback with
  | form hv hothers =>
    refine ⟨_, _, Activity.ends_eval_iff.mpr hv, hact ▸ ?_⟩
    exact (Machine.report_growsTo _ _).trans hothers.growsTo

/-- Two places in a list are the same, or one comes before the other. -/
theorem append_cons_cases {α : Type} {before after before' after' : List α} {v v' : α}
    (h : before ++ v :: after = before' ++ v' :: after') :
    (before = before' ∧ v = v' ∧ after = after') ∨ (∃ mid, before' = before ++ v :: mid) ∨
      ∃ mid, before = before' ++ v' :: mid := by
  rcases List.append_eq_append_iff.mp h with ⟨mid, rfl, hmid⟩ | ⟨mid, rfl, hmid⟩
  · cases mid with
    | nil => exact .inl ⟨(List.append_nil before).symm, List.cons.inj hmid⟩
    | cons w mid => exact .inr (.inl ⟨mid, by rw [(List.cons.inj hmid).1]⟩)
  · cases mid with
    | nil =>
      obtain ⟨hv, hafter⟩ := List.cons.inj hmid
      exact .inl ⟨List.append_nil before', hv.symm, hafter.symm⟩
    | cons w mid => exact .inr (.inr ⟨mid, by rw [(List.cons.inj hmid).1]⟩)

/-- An activation does one thing after another. -/
theorem Calls.eq_or_endsBefore {act₁ act₂ : Activation} (h₁ : act.Calls library act₁)
    (h₂ : act.Calls library act₂) :
    act₁ = act₂ ∨ act₁.EndsBefore library act₂ ∨ act₂.EndsBefore library act₁ := by
  cases h₁ with
  | cell hbefore =>
    rcases h₂.of_sexpr with ⟨_, _, _, _, _, heq, hbefore', rfl⟩ | ⟨_, _, _, _, hcells, rfl⟩
    · rcases append_cons_cases heq with ⟨rfl, rfl, -⟩ | ⟨mid, rfl⟩ | ⟨mid, rfl⟩
      · obtain ⟨-, rfl⟩ := hbefore.unique hbefore'
        exact .inl rfl
      · exact .inr (.inl (endsBefore_of_cells hbefore hbefore' rfl))
      · exact .inr (.inr (endsBefore_of_cells hbefore' hbefore rfl))
    · exact .inr (.inl (endsBefore_of_cells hbefore hcells rfl))
  | apply hcells =>
    rcases h₂.of_sexpr with ⟨_, _, _, _, _, rfl, hbefore', rfl⟩ | ⟨_, _, _, _, hcells', rfl⟩
    · exact .inr (.inr (endsBefore_of_cells hbefore' hcells rfl))
    · obtain ⟨hvalues, rfl⟩ := hcells.unique hcells'
      obtain ⟨hfunction, hargs⟩ := List.cons.inj hvalues
      obtain ⟨rfl, rfl⟩ := List.cons.inj hargs
      obtain rfl := Function.eq_of_toValue_eq hfunction
      exact .inl rfl
  | form hread hforms hbefore =>
    cases h₂ with
    | form hread' hforms' hbefore' =>
      obtain rfl := Option.some.inj (hread.symm.trans hread')
      have heq := Except.ok.inj (hforms.symm.trans hforms')
      rcases append_cons_cases heq with ⟨rfl, rfl, -⟩ | ⟨mid, rfl⟩ | ⟨mid, rfl⟩
      · obtain ⟨-, rfl⟩ := hbefore.unique hbefore'
        exact .inl rfl
      · exact .inr (.inl (endsBefore_of_forms hbefore hbefore' rfl))
      · exact .inr (.inr (endsBefore_of_forms hbefore' hbefore rfl))
  | primitive =>
    cases h₂
    exact .inl rfl
  | body htake =>
    cases h₂ with
    | body htake' =>
      obtain ⟨-, rfl⟩ := Prod.mk.inj (Except.ok.inj (htake.symm.trans htake'))
      exact .inl rfl
  | evaluate hrequest =>
    cases h₂ with
    | evaluate hrequest' =>
      cases hrequest.symm.trans hrequest'
      exact .inl rfl
    | load hrequest' => cases hrequest.symm.trans hrequest'
  | load hrequest =>
    cases h₂ with
    | evaluate hrequest' => cases hrequest.symm.trans hrequest'
    | load hrequest' =>
      cases hrequest.symm.trans hrequest'
      exact .inl rfl

/-- Of two activations on the way, one is on the way of the other or ends before it begins. -/
theorem Reaches.reaches_or_endsBefore {act₁ act₂ : Activation} (h₁ : start.Reaches library act₁)
    (h₂ : start.Reaches library act₂) :
    act₁.Reaches library act₂ ∨ act₂.Reaches library act₁ ∨
      act₁.EndsBefore library act₂ ∨ act₂.EndsBefore library act₁ := by
  induction h₁ using Relation.ReflTransGen.head_induction_on with
  | refl => exact .inl h₂
  | head hcalls₁ hreaches₁ ih =>
    rcases Relation.ReflTransGen.cases_head h₂ with rfl | ⟨next, hcalls₂, hreaches₂⟩
    · exact .inr (.inl (hreaches₁.head hcalls₁))
    · rcases hcalls₁.eq_or_endsBefore hcalls₂ with rfl | hbefore | hbefore
      · exact ih hreaches₂
      · exact .inr (.inr (.inl (hbefore.of_reaches hreaches₁ hreaches₂)))
      · exact .inr (.inr (.inr (hbefore.of_reaches hreaches₂ hreaches₁)))

end Activation

/-! ## Histories -/

/-- What can be done with scopes directly. -/
inductive ScopeOperation where
  /-- Make a scope without bindings, inside another one or not. -/
  | create (parent : Option ScopeId)
  | copy (scope : ScopeId)
  | drop (scope : ScopeId)
  | setParent (scope parent : ScopeId)
  | setLocal (scope : ScopeId) (name : String) (value : Value)
  | setGlobal (scope : ScopeId) (name : String) (value : Value)
  | parent (scope : ScopeId)
  | lookup (scope : ScopeId) (name : String)
  | bindings (scope : ScopeId)

/-- What is answered to whoever holds the interpreter. -/
inductive Reply where
  | done
  | value (v : Value)
  | scope (id : Option ScopeId)
  | found (v : Option Value)
  | bindings (bindings : Bindings)

/-- Does something with scopes. -/
def ScopeOperation.run (store : Store) : ScopeOperation → Reply × Store
  | .create around => (.scope (some store.nextId), store.push ⟨[], around⟩)
  | .copy id => (.scope (some store.nextId), store.copy id)
  | .drop id => (.done, store.drop id)
  | .setParent id around => (.done, store.setParent id around)
  | .setLocal id name v => (.done, store.setLocal id name v)
  | .setGlobal id name v => (.done, store.setGlobal id name v)
  | .parent id => (.scope (store.parent? id), store)
  | .lookup id name => (.found (store.lookup? id name), store)
  | .bindings id => (.bindings (store.bindings id), store)

/-- What an interpreter is asked to do. -/
inductive Demand where
  | activity (library : Library) (scope : ScopeId) (activity : Activity)
  | scopes (operation : ScopeOperation)

/-- The interpreter does what it is asked to, and ends with a reply and another machine. -/
inductive Demand.Ends : Demand → Machine → Reply → Machine → Prop
  | activity {library : Library} {scope : ScopeId} {activity : Activity} {m m' : Machine}
      {a : Value} :
      activity.Ends library scope m a m' →
      Ends (.activity library scope activity) m (.value a) m'
  | scopes {operation : ScopeOperation} {m : Machine} :
      Ends (.scopes operation) m (operation.run m.store).1
        { m with store := (operation.run m.store).2 }

/-- Something that the interpreter was asked to do and has done. -/
structure Turn where
  demand : Demand
  before : Machine
  reply : Reply
  after : Machine

/-- What can be seen of a turn without looking at the output. -/
def Turn.outcome (t : Turn) : Demand × Reply × Store :=
  (t.demand, t.reply, t.after.store)

/-- The interpreter has done these things one after another, starting with the machine `m`. -/
inductive History : Machine → List Turn → Prop
  | nil {m : Machine} : History m []
  | cons {demand : Demand} {m m' : Machine} {reply : Reply} {turns : List Turn} :
      demand.Ends m reply m' → History m' turns →
      History m (⟨demand, m, reply, m'⟩ :: turns)

variable {turns : List Turn}

/-- What is done on one output is done alike on all of them. -/
theorem Demand.Ends.exists_on_outputs {demand : Demand} {reply : Reply}
    (h : demand.Ends m reply m') :
    ∃ written store', m' = m.after store' written ∧ ∀ output,
      demand.Ends ⟨m.store, output⟩ reply ⟨store', output.writeAll written⟩ := by
  cases h with
  | activity hends =>
    obtain ⟨written, store', hm, hon⟩ := hends.exists_on_outputs
    exact ⟨written, store', hm, fun output ↦ .activity (hon output)⟩
  | @scopes operation =>
    exact ⟨[], (operation.run m.store).2, rfl, fun output ↦ @scopes operation ⟨m.store, output⟩⟩

theorem Demand.Ends.exists_ends {activity : Activity} {reply : Reply}
    (h : (Demand.activity library scope activity).Ends m reply m') :
    ∃ a, activity.Ends library scope m a m' := by
  cases h with
  | activity hends => exact ⟨_, hends⟩

theorem Demand.Ends.lines_eq {operation : ScopeOperation} {reply : Reply}
    (h : (Demand.scopes operation).Ends m reply m') : m'.lines = m.lines := by
  cases h
  rfl

theorem Demand.Ends.growsTo {demand : Demand} {reply : Reply} (h : demand.Ends m reply m') :
    m.output.GrowsTo m'.output := by
  obtain ⟨written, store', rfl, -⟩ := h.exists_on_outputs
  exact ⟨written, rfl⟩

/-- A history comes about in the same way on every output. -/
theorem History.exists_on_output (h : History m turns) (output : Output) :
    ∃ turns', History ⟨m.store, output⟩ turns' ∧
      turns'.map Turn.outcome = turns.map Turn.outcome := by
  induction h generalizing output with
  | nil => exact ⟨[], .nil, rfl⟩
  | @cons demand m m' reply turns hends _ ih =>
    obtain ⟨written, store', rfl, hon⟩ := hends.exists_on_outputs
    obtain ⟨turns', hturns, houtcomes⟩ := ih (output.writeAll written)
    refine ⟨_, .cons (hon output) hturns, ?_⟩
    rw [List.map_cons, List.map_cons, houtcomes]
    rfl

/-- Each thing in a history was done on an output that takes lines if the first one was. -/
theorem History.ends_and_accepts (h : History m turns) {t : Turn} (ht : t ∈ turns) :
    t.demand.Ends t.before t.reply t.after ∧ t.before.output.accepts = m.output.accepts := by
  induction h with
  | nil => cases ht
  | cons hends _ ih =>
    rcases List.mem_cons.mp ht with rfl | ht
    · exact ⟨hends, rfl⟩
    · obtain ⟨ht, haccepts⟩ := ih ht
      exact ⟨ht, haccepts.trans hends.growsTo.accepts_eq⟩

/-! ## Output that is taken -/

section

variable {act : Activation} {b : Value}

theorem Machine.lines_emitAll (m : Machine) (lines : List String)
    (haccepts : m.output.accepts = true) : (m.emitAll lines).lines = m.lines ++ lines := by
  rw [Machine.emitAll_eq_after]
  exact Output.toList_lines_writeAll haccepts lines

/-- What an activation that has left the machine `m'` has written itself: printing writes one line,
and printing a scope one for each of its own bindings. When a form of a file that is loaded has
failed, its report comes right after what the form has written. -/
structure Activation.HasWritten (library : Library) (act : Activation) (m' : Machine) : Prop where
  print : ∀ args, act.activity = .call .print args →
    m'.lines = act.machine.lines ++ [String.ofList (spaced (args.map Value.chars))]
  printScope : ∀ args, act.activity = .call .printScope args →
    m'.lines = act.machine.lines ++ (act.machine.store.bindings act.scope).lines
  report : ∀ path form b m₁, act.activity = .load path → act.Calls library form →
    form.Ends library b m₁ → b.isError = true → m₁.lines ++ [b.display] <+: m'.lines

theorem Activation.Ends.hasWritten (h : act.Ends library b m')
    (haccepts : act.machine.output.accepts = true) : act.HasWritten library m' where
  print args hact := by
    rw [Activation.Ends, hact] at h
    obtain ⟨-, rfl⟩ := Activity.ends_print_iff.mp h
    exact act.machine.lines_emitAll [_] haccepts
  printScope args hact := by
    rw [Activation.Ends, hact] at h
    obtain ⟨-, rfl⟩ := Activity.ends_printScope_iff.mp h
    exact act.machine.lines_emitAll _ haccepts
  report path form b m₁ hact hcalls hends hb := by
    obtain ⟨b', m₂, hends', -, hreport⟩ := hcalls.exists_ends_and_growsTo h
    obtain ⟨rfl, rfl⟩ := Activity.Ends.unique hends' hends
    have hgrows : act.machine.output.GrowsTo m₂.output := hcalls.growsTo.trans hends'.growsTo
    have hm₂ : m₂.output.accepts = true := hgrows.accepts_eq.trans haccepts
    have hlines : (m₂.report b').lines = m₂.lines ++ [b'.display] := by
      rw [Machine.report, if_pos hb]
      exact m₂.lines_emitAll [_] hm₂
    rw [← hlines]
    exact (hreport path hact).lines_isPrefix ((m₂.report_growsTo b').accepts_eq.trans hm₂)

/-- The lines of everything on the way of an activation stand together, after what was written
before it and before what is written after it. -/
theorem Activation.Reaches.exists_ends_and_lines {start : Activation}
    (h : start.Reaches library act) (hstart : start.Ends library a m')
    (haccepts : start.machine.output.accepts = true) :
    ∃ b m₁, act.Ends library b m₁ ∧ start.machine.lines <+: act.machine.lines ∧
      act.machine.lines <+: m₁.lines ∧ m₁.lines <+: m'.lines ∧ act.HasWritten library m₁ := by
  obtain ⟨b, m₁, hends, hgrows⟩ := h.exists_ends_and_growsTo hstart
  have hact : act.machine.output.accepts = true := h.growsTo.accepts_eq.trans haccepts
  have hm₁ : m₁.output.accepts = true :=
    (Activity.Ends.growsTo hends).accepts_eq.trans hact
  have hown := (Activity.Ends.growsTo hends).lines_isPrefix hact
  exact ⟨b, m₁, hends, h.growsTo.lines_isPrefix haccepts, hown, hgrows.lines_isPrefix hm₁,
    hends.hasWritten hact⟩

theorem Activation.EndsBefore.exists_lines {act' : Activation} (h : act.EndsBefore library act')
    (haccepts : act.machine.output.accepts = true) :
    ∃ b m₁, act.Ends library b m₁ ∧ m₁.lines <+: act'.machine.lines := by
  obtain ⟨b, m₁, hends, hgrows⟩ := h
  exact ⟨b, m₁, hends,
    hgrows.lines_isPrefix ((Activity.Ends.growsTo hends).accepts_eq.trans haccepts)⟩

end

/-- **Output never matters.** An interpreter is asked to do any number of things, one after another,
and does them all. On any other output, in particular on one that every attempt to write to fails
on, the same is done: step by step the replies are the same, and so are the scopes.

If the output takes lines, each step adds whole lines after those that were there, and a step that
only concerns scopes adds none. In the course of an activity lines come in the order of evaluation:
the lines of anything on the way stand together, after what had been written when it began and
before what is written after it has ended, and of two things on the way, one is a part of the other
or ends before the other begins. -/
theorem History.same_on_every_output_and_appends (h : History m turns) :
    (∀ output, ∃ turns', History ⟨m.store, output⟩ turns' ∧
        turns'.map Turn.outcome = turns.map Turn.outcome) ∧
      (m.output.accepts = true → ∀ t ∈ turns,
        t.before.lines <+: t.after.lines ∧
        (∀ operation, t.demand = .scopes operation → t.after.lines = t.before.lines) ∧
        ∀ library scope activity, t.demand = .activity library scope activity →
          (∀ act, Activation.Reaches library ⟨scope, activity, t.before, []⟩ act →
            ∃ b m₁, act.Ends library b m₁ ∧
              t.before.lines <+: act.machine.lines ∧ act.machine.lines <+: m₁.lines ∧
              m₁.lines <+: t.after.lines ∧ act.HasWritten library m₁) ∧
          ∀ act act', Activation.Reaches library ⟨scope, activity, t.before, []⟩ act →
            Activation.Reaches library ⟨scope, activity, t.before, []⟩ act' →
            act.Reaches library act' ∨ act'.Reaches library act ∨
              (∃ b m₁, act.Ends library b m₁ ∧ m₁.lines <+: act'.machine.lines) ∨
              ∃ b m₁, act'.Ends library b m₁ ∧ m₁.lines <+: act.machine.lines) := by
  refine ⟨h.exists_on_output, fun haccepts t ht ↦ ?_⟩
  obtain ⟨hends, hsame⟩ := h.ends_and_accepts ht
  have hbefore : t.before.output.accepts = true := hsame.trans haccepts
  refine ⟨hends.growsTo.lines_isPrefix hbefore, fun operation hdemand ↦ ?_,
    fun library scope activity hdemand ↦ ?_⟩
  · rw [hdemand] at hends
    exact hends.lines_eq
  · rw [hdemand] at hends
    obtain ⟨a, hends⟩ := hends.exists_ends
    refine ⟨fun act hact ↦ hact.exists_ends_and_lines hends hbefore, fun act act' hact hact' ↦ ?_⟩
    have htakes : act.machine.output.accepts = true := hact.growsTo.accepts_eq.trans hbefore
    have htakes' : act'.machine.output.accepts = true := hact'.growsTo.accepts_eq.trans hbefore
    rcases hact.reaches_or_endsBefore hact' with h | h | h | h
    · exact .inl h
    · exact .inr (.inl h)
    · exact .inr (.inr (.inl (h.exists_lines htakes)))
    · exact .inr (.inr (.inr (h.exists_lines htakes')))

/-- Something printed while a form is evaluated that prints itself, and a scope made afterwards. -/
theorem History.same_on_every_output_and_appends_of_nested_print :
    ∃ turns, History (Machine.start .empty) turns ∧
      (Machine.start .empty).output.accepts = true ∧
      turns.map (fun t ↦ (t.before.lines, t.after.lines)) =
        [([], ["\"x\"", "() \"y\""]), (["\"x\"", "() \"y\""], ["\"x\"", "() \"y\""])] ∧
      (∃ turns', History (Machine.start .broken) turns' ∧
        turns'.map Turn.outcome = turns.map Turn.outcome) ∧
      ∀ t ∈ turns, t.before.lines <+: t.after.lines := by
  have hx : Derives ⟨fun _ ↦ none⟩ globalScope (.value (.sexpr [.symbol "print", .string "x"]))
      (Machine.start .empty) [.unit] ((Machine.start .empty).emit "\"x\"") :=
    .print (.cell (.bound (lookup?_start .print _)) (.cell (.inert trivial) .noCells)) rfl
  have hy : Derives ⟨fun _ ↦ none⟩ globalScope
      (.value (.sexpr [.symbol "print", .sexpr [.symbol "print", .string "x"], .string "y"]))
      (Machine.start .empty) [.unit] (((Machine.start .empty).emit "\"x\"").emit "() \"y\"") :=
    .print (.cell (.bound (lookup?_start .print _))
      (.cell hx (.cell (.inert trivial) .noCells))) rfl
  have hhistory : History (Machine.start .empty) _ :=
    .cons (.activity (Activity.ends_eval_iff.mpr hy))
      (.cons (@Demand.Ends.scopes (.create (some globalScope)) _) .nil)
  obtain ⟨hsame, happends⟩ := hhistory.same_on_every_output_and_appends
  exact ⟨_, hhistory, rfl, rfl, hsame .broken, fun t ht ↦ (happends rfl t ht).1⟩

end QuoteLisp
