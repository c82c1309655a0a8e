import QuoteLisp.Proofs.Evaluation.Rules

/-!
# What evaluation writes

Evaluation adds lines to the output and never looks at it. So what a task does is said without
naming an output: it takes one store to another, has results and writes some lines. `Writes` says
this of all outputs at once, the broken one included, and every task that ends does so on some
output writes in this sense (`derives_iff_writes`).
-/

namespace QuoteLisp

namespace Output

/-- Writes lines, one after another. -/
def writeAll (output : Output) (lines : List String) : Output :=
  lines.foldl write output

theorem writeAll_append (output : Output) (lines more : List String) :
    output.writeAll (lines ++ more) = (output.writeAll lines).writeAll more :=
  List.foldl_append

/-- An output that takes lines holds them after those it held. -/
theorem toList_lines_writeAll {output : Output} (h : output.accepts = true)
    (lines : List String) :
    (output.writeAll lines).lines.toList = output.lines.toList ++ lines := by
  induction lines generalizing output with
  | nil => exact (List.append_nil _).symm
  | cons line lines ih =>
    have hwrite : output.write line = { output with lines := output.lines.push line } := if_pos h
    change ((output.write line).writeAll lines).lines.toList = _
    rw [hwrite, @ih { output with lines := output.lines.push line } h, Array.toList_push,
      List.append_assoc]
    rfl

end Output

/-- What is written about the result of a form of a file. -/
def Value.complaint (result : Value) : List String :=
  if result.isError then [result.display] else []

namespace Machine

/-- The machine with another store, after some lines were written. -/
def after (m : Machine) (store : Store) (written : List String) : Machine :=
  ⟨store, m.output.writeAll written⟩

variable (m : Machine)

theorem after_after (store store' : Store) (written written' : List String) :
    (m.after store written).after store' written' = m.after store' (written ++ written') :=
  congrArg (Machine.mk store') (m.output.writeAll_append written written').symm

theorem emitAll_eq_after (lines : List String) : m.emitAll lines = m.after m.store lines := by
  rw [emitAll]
  induction lines generalizing m with
  | nil => rfl
  | cons line lines ih => exact ih (m.emit line)

theorem report_eq_after (result : Value) :
    m.report result = m.after m.store result.complaint := by
  rw [report, Value.complaint]
  split <;> rfl

end Machine

/-- Done in a scope of the first store, the task has these results, writes these lines and leaves
the second store, whatever the output. -/
def Writes (library : Library) (scope : ScopeId) (task : Task) (store : Store) (as : List Value)
    (written : List String) (store' : Store) : Prop :=
  ∀ output, Derives library scope task ⟨store, output⟩ as ⟨store', output.writeAll written⟩

variable {library : Library} {scope : ScopeId} {task : Task} {as as' : List Value}
  {m m' : Machine} {store store₁ store₂ : Store} {written written' : List String}

/-- What a task writes, it writes on any machine with the store. -/
theorem Writes.derives (h : Writes library scope task m.store as written store₁) :
    Derives library scope task m as (m.after store₁ written) :=
  h m.output

/-- What comes of an action does not depend on the output, if that holds of the task that it goes on
to. -/
theorem Action.ComesTo.exists_after {action : Action} {a : Value}
    (h : action.ComesTo library (fun scope task m as m' ↦ ∃ written store',
      Writes library scope task m.store as written store' ∧ m' = m.after store' written)
      scope m a m') :
    ∃ written store', m' = m.after store' written ∧ ∀ output,
      action.ComesTo library (Derives library) scope ⟨m.store, output⟩ a
        ⟨store', output.writeAll written⟩ := by
  cases h with
  | give => exact ⟨[], m.store, rfl, fun _ ↦ .give⟩
  | evaluate hselected =>
    obtain ⟨written, store', hselected, rfl⟩ := hselected
    exact ⟨written, store', rfl, fun output ↦ .evaluate (hselected output)⟩
  | @bind target entries =>
    exact ⟨[], m.store.bindAll target scope entries, rfl, fun _ ↦ .bind⟩
  | loadFails hread hforms => exact ⟨[], m.store, rfl, fun _ ↦ .loadFails hread hforms⟩
  | load hread hforms hrun =>
    obtain ⟨written, store', hrun, rfl⟩ := hrun
    exact ⟨written, store', rfl, fun output ↦ .load hread hforms (hrun output)⟩
  | @print line => exact ⟨[line], m.store, rfl, fun _ ↦ .print⟩
  | printScope =>
    refine ⟨(m.store.bindings scope).lines, m.store, m.emitAll_eq_after _, fun output ↦ ?_⟩
    have hprint := @Action.ComesTo.printScope library (Derives library) scope ⟨m.store, output⟩
    rwa [Machine.emitAll_eq_after] at hprint
  | enter hbody =>
    obtain ⟨written, store', hbody, rfl⟩ := hbody
    refine ⟨written, store'.pop, rfl, fun output ↦ ?_⟩
    exact @Action.ComesTo.enter _ _ _ _ _ _ ⟨m.store, output⟩ _ (hbody output)

/-- A task that ends on one output ends alike on all of them. -/
theorem Derives.exists_writes (h : Derives library scope task m as m') :
    ∃ written store', Writes library scope task m.store as written store' ∧
      m' = m.after store' written := by
  -- a part starts on the output that the parts before it left, so each must do for all outputs
  refine h.action_induction (motive := fun scope task m as m' ↦ ∃ written store',
    Writes library scope task m.store as written store' ∧ m' = m.after store' written)
    ?bound ?unbound ?inert ?sexpr ?noCells ?cell ?noForms ?form
  case bound => exact fun hlookup ↦ ⟨[], _, fun _ ↦ .bound hlookup, rfl⟩
  case unbound => exact fun hlookup ↦ ⟨[], _, fun _ ↦ .unbound hlookup, rfl⟩
  case inert => exact fun hinert ↦ ⟨[], _, fun _ ↦ .inert hinert, rfl⟩
  case sexpr =>
    rintro scope cells values a m _ m' ⟨written, store₁, hcells, rfl⟩ haction
    obtain ⟨written', store₂, rfl, hperform⟩ := haction.exists_after
    refine ⟨written ++ written', store₂, fun output ↦ ?_, m.after_after _ _ _ _⟩
    rw [Output.writeAll_append]
    exact derives_sexpr_iff.mpr ⟨values, _, hcells output, hperform (output.writeAll written)⟩
  case noCells => exact ⟨[], _, fun _ ↦ .noCells, rfl⟩
  case cell =>
    rintro scope v a vs values m _ _ ⟨written, store₁, hv, rfl⟩ ⟨written', store₂, hvs, rfl⟩
    refine ⟨written ++ written', store₂, fun output ↦ ?_, m.after_after _ _ _ _⟩
    rw [Output.writeAll_append]
    exact .cell (hv output) (hvs (output.writeAll written))
  case noForms => exact ⟨[], _, fun _ ↦ .noForms, rfl⟩
  case form =>
    rintro scope v a vs m _ _ ⟨written, store₁, hv, rfl⟩ ⟨written', store₂, hvs, rfl⟩
    rw [Machine.report_eq_after, Machine.after_after] at hvs ⊢
    rw [Machine.after_after, ← List.append_assoc]
    refine ⟨written ++ a.complaint ++ written', store₂, fun output ↦ ?_, rfl⟩
    rw [Output.writeAll_append, Output.writeAll_append]
    refine .form (hv output) ?_
    rw [Machine.report_eq_after]
    exact hvs ((output.writeAll written).writeAll a.complaint)

/-- **Output is never looked at.** A task ends if it writes something, and the machine it leaves is
the one it began with after that was written. -/
theorem derives_iff_writes :
    Derives library scope task m as m' ↔ ∃ written store',
      Writes library scope task m.store as written store' ∧ m' = m.after store' written := by
  refine ⟨Derives.exists_writes, ?_⟩
  rintro ⟨written, store', h, rfl⟩
  exact h.derives

/-- What a task writes is determined, like its results and the store that it leaves. -/
theorem Writes.unique (h : Writes library scope task store as written store₁)
    (h' : Writes library scope task store as' written' store₂) :
    as = as' ∧ written = written' ∧ store₁ = store₂ := by
  -- an output that was empty holds exactly what was written
  obtain ⟨rfl, heq⟩ := (h .empty).unique (h' .empty)
  obtain ⟨rfl, houtput⟩ := Machine.mk.inj heq
  have hlines := congrArg (·.lines.toList) houtput
  rw [Output.toList_lines_writeAll rfl, Output.toList_lines_writeAll rfl] at hlines
  exact ⟨rfl, hlines, rfl⟩

end QuoteLisp
