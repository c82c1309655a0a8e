import QuoteLisp.Proofs.Evaluation.Activation

/-!
# Only loaded files matter

A run asks the library for the files that it loads, and for no others. So two libraries that say the
same of these files make no difference: what comes about on the way is the same, and so are the
results (`Activation.Reaches.of_agree`, `Derives.of_agree`).

In particular a library can be cut down to the files that are loaded (`Library.restrict`). A
property that the files need to have is then one that the loaded files need to have.
-/

namespace QuoteLisp

namespace Activation

/-- A file is loaded on the way. -/
def Loads (library : Library) (start : Activation) (path : String) : Prop :=
  ∃ scope m frames, Reaches library start ⟨scope, .load path, m, frames⟩

/-- The second library says the same as the first one of every file that is loaded on the way. -/
def Agree (library library' : Library) (start : Activation) : Prop :=
  ∀ path, start.Loads library path → library'.read? path = library.read? path

end Activation

open Activation

variable {library library' : Library} {start act act' : Activation} {scope : ScopeId}
  {m m' : Machine}

/-- A form that asks for a file loads it. -/
theorem Activation.Holds.loads {cells values : List Value} {path : String} {m₁ : Machine}
    (h : Holds library start ⟨scope, .value (.sexpr cells), m⟩)
    (hcells : Derives library scope (.cells cells) m values m₁)
    (haction : actionOf values = .request (.load path)) : start.Loads library path := by
  obtain ⟨frames, hload⟩ := h.exists_load hcells haction
  exact ⟨scope, m₁, frames, hload⟩

/-- What a form asks for comes to the same with the other library, if that holds of the task that
it goes on to. -/
theorem Action.ComesTo.of_agree {cells values : List Value} {a : Value} {m₁ : Machine}
    (hagree : start.Agree library library')
    (hholds : Holds library start ⟨scope, .value (.sexpr cells), m⟩)
    (hcells : Derives library scope (.cells cells) m values m₁)
    (h : (actionOf values).ComesTo library (fun scope task m as m' ↦
      Holds library start ⟨scope, task, m⟩ → Derives library' scope task m as m') scope m₁ a m') :
    (actionOf values).ComesTo library' (Derives library') scope m₁ a m' := by
  generalize haction : actionOf values = action at h
  cases h with
  | give => exact .give
  | evaluate hselected => exact .evaluate (hselected (hholds.of_makes (.evaluate hcells haction)))
  | bind => exact .bind
  | loadFails hread hforms =>
    have hsame := hagree _ (hholds.loads hcells haction)
    exact .loadFails (hsame.trans hread) hforms
  | load hread hforms hrun =>
    have hsame := hagree _ (hholds.loads hcells haction)
    exact .load (hsame.trans hread) hforms
      (hrun (hholds.of_makes (.load hcells haction hread hforms)))
  | print => exact .print
  | printScope => exact .printScope
  | enter hbody => exact .enter (hbody (hholds.of_makes (.enter hcells haction)))

/-- Whatever is derived on the way with one library is derived with the other one. -/
theorem Derives.of_agree {task : Task} {as : List Value} (hagree : start.Agree library library')
    (h : Derives library scope task m as m') (hholds : Holds library start ⟨scope, task, m⟩) :
    Derives library' scope task m as m' := by
  refine h.way_induction ?bound ?unbound ?inert ?sexpr ?noCells ?cell ?noForms ?form hholds
  case bound => exact fun hlookup ↦ .bound hlookup
  case unbound => exact fun hlookup ↦ .unbound hlookup
  case inert => exact fun hinert ↦ .inert hinert
  case sexpr =>
    intro scope cells values a m m₁ m' hholds hcells hcells' haction
    have haction' := (haction.mono And.right).of_agree hagree hholds hcells
    exact derives_sexpr_iff.mpr ⟨values, m₁, hcells', haction'⟩
  case noCells => exact .noCells
  case cell => exact fun hv hvs ↦ .cell hv hvs
  case noForms => exact .noForms
  case form => exact fun hv hvs ↦ .form hv hvs

namespace Activation

theorem Calls.of_agree (hagree : start.Agree library library') (h : Calls library act act')
    (hact : Reaches library start act) : Calls library' act act' := by
  cases h with
  | cell hbefore =>
    exact .cell (hbefore.of_agree hagree ⟨[], _, [], _, _, hact, .noCells⟩)
  | apply hcells hargs =>
    have hholds : Holds library start ⟨_, .value (.sexpr _), _⟩ := ⟨_, hact⟩
    exact .apply (hcells.of_agree hagree (hholds.of_makes .cells)) hargs
  | primitive => exact .primitive
  | body htake => exact .body htake
  | evaluate hrequest => exact .evaluate hrequest
  | load hrequest => exact .load hrequest
  | form hread hforms hbefore =>
    have hsame := hagree _ ⟨_, _, _, hact⟩
    exact .form (hsame.trans hread) hforms
      (hbefore.of_agree hagree ⟨_, _, [], _, _, _, hact, hread, hforms, .noForms⟩)

/-- What comes about with one library comes about with the other one. -/
theorem Reaches.of_agree (hagree : start.Agree library library') (h : Reaches library start act) :
    Reaches library' start act := by
  induction h with
  | refl => exact .refl
  | tail hact hcalls ih => exact ih.tail (hcalls.of_agree hagree hact)

end Activation

/-! ## Cutting down a library -/

open Classical in
/-- The library that says what the given one says of some paths, and nothing of any other. -/
noncomputable def Library.restrict (library : Library) (known : String → Prop) : Library :=
  ⟨fun path ↦ if known path then library.read? path else none⟩

theorem Library.restrict_eq_some_iff {known : String → Prop} {path : String}
    {outcome : Except ReadError String} :
    (library.restrict known).read? path = some outcome ↔
      known path ∧ library.read? path = some outcome := by
  rw [restrict]
  dsimp only
  by_cases hknown : known path
  · rw [if_pos hknown, and_iff_right hknown]
  · rw [if_neg hknown]
    exact iff_of_false (fun h ↦ nomatch h) fun h ↦ hknown h.1

theorem Activation.agree_restrict (library : Library) (start : Activation) :
    start.Agree library (library.restrict (start.Loads library)) :=
  fun _ hloads ↦ if_pos hloads

end QuoteLisp
