import QuoteLisp.Proofs.Program.Log

/-!
# Runs of the program and their logs

A run of the program comes to an end with some fuel exactly when it has a log, and then it leaves
behind what the log says (`Invocation.endsOn_iff`). So what the program does can be read off the
rules for logs. When there is no line editor to be had, there is a log of the files only
(`Invocation.endsOn_of_refused_iff`).

The program is put together from sequences of runs, each with the same fuel. Because more fuel never
changes what a run yields, the parts of a sequence may come to their ends with different amounts
(`Run.settles_bind_iff`).
-/

namespace QuoteLisp

namespace Run

variable {α β : Type}

/-- With some fuel, the run, started on the machine `m`, ends with the result `a` and the machine
`m'`. -/
def Settles (run : (fuel : Nat) → Run α) (m : Machine) (a : α) (m' : Machine) : Prop :=
  ∃ fuel, Yields (run fuel) m a m'

/-- With more fuel, the run yields whatever it yields with less. -/
def Grows (run : (fuel : Nat) → Run α) : Prop :=
  ∀ fuel fuel', fuel ≤ fuel' → Below (run fuel) (run fuel')

theorem grows_const (run : Run α) : Grows fun _ ↦ run :=
  fun _ _ _ ↦ .refl run

theorem Grows.bind {x : Nat → Run α} {f : Nat → α → Run β} (hx : Grows x)
    (hf : ∀ a, Grows fun fuel ↦ f fuel a) : Grows fun fuel ↦ x fuel >>= f fuel :=
  fun fuel fuel' hle ↦ .bind (hx fuel fuel' hle) fun a ↦ hf a fuel fuel' hle

theorem Grows.forM {f : Nat → α → Run Unit} (h : ∀ a, Grows fun fuel ↦ f fuel a) (as : List α) :
    Grows fun fuel ↦ as.forM (f fuel) :=
  fun fuel fuel' hle ↦ .forM (fun a ↦ h a fuel fuel' hle) as

theorem settles_const_iff {run : Run α} {m m' : Machine} {a : α} :
    Settles (fun _ ↦ run) m a m' ↔ Yields run m a m' :=
  exists_const Nat

/-- A sequence ends when its parts do, each with fuel of its own. -/
theorem settles_bind_iff {x : Nat → Run α} {f : Nat → α → Run β} (hx : Grows x)
    (hf : ∀ a, Grows fun fuel ↦ f fuel a) {m m' : Machine} {b : β} :
    Settles (fun fuel ↦ x fuel >>= f fuel) m b m' ↔
      ∃ a m₁, Settles x m a m₁ ∧ Settles (fun fuel ↦ f fuel a) m₁ b m' := by
  constructor
  · rintro ⟨fuel, h⟩
    obtain ⟨a, m₁, hfirst, hsecond⟩ := yields_bind_iff.mp h
    exact ⟨a, m₁, ⟨fuel, hfirst⟩, ⟨fuel, hsecond⟩⟩
  · rintro ⟨a, m₁, ⟨fuel, hfirst⟩, ⟨fuel', hsecond⟩⟩
    refine ⟨max fuel fuel', yields_bind_iff.mpr ⟨a, m₁, ?_, ?_⟩⟩
    · exact hx _ _ (Nat.le_max_left fuel fuel') _ _ _ hfirst
    · exact hf a _ _ (Nat.le_max_right fuel fuel') _ _ _ hsecond

/-- A run does one thing, of which `Does` says how it comes out. -/
def Logs (run : (fuel : Nat) → Run Unit) (Does : Store → Entry α → Store → Prop) : Prop :=
  ∀ m m', Settles run m () m' ↔
    ∃ entry store', Does m.store entry store' ∧ m' = m.after store' entry.written

/-- Things that are done one after another are logged one after another. -/
theorem settles_forM_iff {f : Nat → α → Run Unit} {Does : Store → α → Entry β → Store → Prop}
    (hgrows : ∀ a, Grows fun fuel ↦ f fuel a)
    (hlogs : ∀ a, Logs (fun fuel ↦ f fuel a) fun store ↦ Does store a) {as : List α}
    {m m' : Machine} :
    Settles (fun fuel ↦ as.forM (f fuel)) m () m' ↔ ∃ entries store',
      InTurn Does m.store as entries store' ∧ m' = m.after store' (Entry.writtenBy entries) := by
  induction as generalizing m with
  | nil =>
    rw [show (fun fuel ↦ [].forM (f fuel)) = fun _ : Nat ↦ (pure () : Run Unit) from rfl,
      settles_const_iff, yields_pure_iff, and_iff_right rfl]
    constructor
    · rintro rfl
      exact ⟨[], m'.store, .nil, rfl⟩
    · rintro ⟨entries, store', h, rfl⟩
      obtain _ | _ := h
      rfl
  | cons a as ih =>
    rw [show (fun fuel ↦ (a :: as).forM (f fuel))
      = fun fuel ↦ f fuel a >>= fun _ ↦ as.forM (f fuel) from rfl,
      settles_bind_iff (hgrows a) fun _ ↦ .forM hgrows as]
    constructor
    · rintro ⟨_, m₁, hsettles, hrest⟩
      obtain ⟨entry, store₁, hfirst, rfl⟩ := (hlogs a m m₁).mp hsettles
      obtain ⟨entries, store', hothers, rfl⟩ := ih.mp hrest
      exact ⟨entry :: entries, store', .cons hfirst hothers, m.after_after _ _ _ _⟩
    · rintro ⟨entries, store', h, rfl⟩
      obtain _ | ⟨hfirst, hothers⟩ := h
      refine ⟨(), _, (hlogs a m _).mpr ⟨_, _, hfirst, rfl⟩, ih.mpr ⟨_, _, hothers, ?_⟩⟩
      exact (m.after_after _ _ _ _).symm

end Run

open Run

variable {library : Library}

/-! ## Files -/

theorem grows_eval (library : Library) (scope : ScopeId) (v : Value) :
    Grows fun fuel ↦ eval library fuel scope v :=
  fun _ _ hle ↦ eval_below_of_le library hle scope v

theorem settles_eval_iff {scope : ScopeId} {v a : Value} {m m' : Machine} :
    Settles (fun fuel ↦ eval library fuel scope v) m a m' ↔ ∃ written store',
      Writes library scope (.value v) m.store [a] written store' ∧ m' = m.after store' written :=
  evaluates_iff_derives.trans derives_iff_writes

theorem logs_runForm (library : Library) (form : Value) :
    Logs (fun fuel ↦ runForm (eval library fuel) globalScope form)
      fun store ↦ RunsForm library store form := by
  intro m m'
  simp only [Settles, yields_runForm_iff]
  constructor
  · rintro ⟨fuel, a, m₁, heval, rfl⟩
    obtain ⟨written, store', hwrites, rfl⟩ := settles_eval_iff.mp ⟨fuel, heval⟩
    refine ⟨⟨a, written ++ a.complaint⟩, store', ⟨written, hwrites, rfl⟩, ?_⟩
    rw [Machine.report_eq_after]
    exact m.after_after _ _ _ _
  · rintro ⟨entry, store', ⟨written, hwrites, hentry⟩, rfl⟩
    obtain ⟨fuel, heval⟩ := settles_eval_iff.mpr ⟨written, store', hwrites, rfl⟩
    refine ⟨fuel, entry.outcome, _, heval, ?_⟩
    rw [Machine.report_eq_after, hentry]
    exact (m.after_after _ _ _ _).symm

theorem grows_runForm (library : Library) (form : Value) :
    Grows fun fuel ↦ runForm (eval library fuel) globalScope form :=
  (grows_eval library globalScope form).bind fun _ ↦ grows_const _

theorem grows_loadAndReport (library : Library) (path : String) :
    Grows fun fuel ↦ loadAndReport library fuel path := by
  refine Grows.bind (fun fuel fuel' hle ↦ ?_) fun _ ↦ grows_const _
  exact loadFile_below library (eval_below_of_le library hle) globalScope path

theorem logs_loadAndReport (library : Library) (path : String) :
    Logs (fun fuel ↦ loadAndReport library fuel path) fun store ↦ LoadsFile library store path := by
  intro m m'
  have hforms {forms : List Value} {m₁ : Machine} :=
    @settles_forM_iff _ _ _ _ (grows_runForm library) (logs_runForm library) forms m m₁
  have hreport {fuel : Nat} : Yields (loadAndReport library fuel path) m () m' ↔
      ∃ result m₁, Yields (load library fuel globalScope path) m result m₁ ∧
        m' = m₁.report result := by
    rw [loadAndReport, yields_bind_iff]
    exact exists_congr fun _ ↦ exists_congr fun _ ↦ and_congr_right fun _ ↦ yields_report_iff
  simp only [Settles, hreport, load, yields_loadFile_iff]
  constructor
  · rintro ⟨fuel, result, m₁, ⟨text, hread, h⟩, rfl⟩
    rw [Machine.report_eq_after]
    rcases h with ⟨failure, hfile, rfl, rfl⟩ | ⟨forms, hfile, hrun, rfl⟩
    · exact ⟨_, m₁.store, .refused hread hfile, rfl⟩
    · obtain ⟨entries, store', hturn, rfl⟩ := hforms.mp ⟨fuel, hrun⟩
      refine ⟨_, store', .run hread hfile hturn, ?_⟩
      rw [Machine.after_after]
      exact congrArg (m.after store') (List.append_nil _)
  · rintro ⟨entry, store', hloads, rfl⟩
    obtain ⟨hread, hfile⟩ | ⟨hread, hfile, hturn⟩ := hloads
    · refine ⟨0, _, m, ⟨_, hread, Or.inl ⟨_, hfile, rfl, rfl⟩⟩, ?_⟩
      rw [Machine.report_eq_after]
    · obtain ⟨fuel, hrun⟩ := hforms.mpr ⟨_, store', hturn, rfl⟩
      exact ⟨fuel, .unit, _, ⟨_, hread, Or.inr ⟨_, hfile, hrun, rfl⟩⟩, rfl⟩

/-! ## Lines -/

/-- Writes how a line came out. The answer tells whether the session goes on. -/
def reply : LineOutcome → Run Bool
  | .error failure => do
    Run.emit failure.message
    return true
  | .ok value => do
    Run.emit value.display
    return !value.isExit

variable {line : String} {m m' : Machine}

theorem promptLine_eq_of_blank (hblank : isBlankText line = true) (fuel : Nat) :
    promptLine library fuel line = pure true := by
  simp only [promptLine, hblank, if_true]

theorem promptLine_eq_bind_reply (hblank : isBlankText line = false) (fuel : Nat) :
    promptLine library fuel line = evalSource library fuel line >>= reply := by
  simp only [promptLine, hblank, Bool.false_eq_true, if_false]
  refine congrArg (evalSource library fuel line >>= ·) (funext fun outcome ↦ ?_)
  match outcome with
  | .error _ | .ok _ => rfl

theorem yields_emit_pure_iff {text : String} {b goesOn : Bool} :
    Yields (do Run.emit text; return b) m goesOn m' ↔
      goesOn = b ∧ m' = m.after m.store [text] := by
  simp only [yields_bind_iff, yields_emit_iff, yields_pure_iff]
  exact ⟨fun ⟨_, _, h, hgo, h'⟩ ↦ ⟨hgo, h'.trans h⟩, fun ⟨hgo, h⟩ ↦ ⟨(), _, rfl, hgo, h⟩⟩

theorem yields_reply_error_iff {failure : HostError} {goesOn : Bool} :
    Yields (reply (.error failure)) m goesOn m' ↔
      goesOn = true ∧ m' = m.after m.store [failure.message] :=
  yields_emit_pure_iff

theorem yields_reply_ok_iff {a : Value} {goesOn : Bool} :
    Yields (reply (.ok a)) m goesOn m' ↔
      goesOn = !a.isExit ∧ m' = m.after m.store [a.display] :=
  yields_emit_pure_iff

theorem Value.isExit_eq_true_iff {a : Value} : a.isExit = true ↔ a = .exit := by
  cases a <;> simp [isExit]

theorem grows_evalSource (library : Library) (line : String) :
    Grows fun fuel ↦ evalSource library fuel line := by
  unfold evalSource
  split
  · exact grows_const _
  · exact (grows_eval library globalScope _).bind fun _ ↦ grows_const _

/-- A source that does not parse is refused at once, and otherwise it ends when its evaluation
does. -/
theorem settles_evalSource_iff {outcome : LineOutcome} :
    Settles (fun fuel ↦ evalSource library fuel line) m outcome m' ↔
      (∃ failure, Node.parse line standardInput = .error failure ∧ outcome = .error failure ∧
        m' = m) ∨
      ∃ root a written store', Node.parse line standardInput = .ok root ∧
        Writes library globalScope (.value (.ofNode root)) m.store [a] written store' ∧
        outcome = .ok a ∧ m' = m.after store' written := by
  unfold evalSource
  match Node.parse line standardInput with
  | .error failure =>
    refine settles_const_iff.trans (yields_pure_iff.trans ⟨?_, ?_⟩)
    · rintro ⟨rfl, rfl⟩
      exact Or.inl ⟨failure, rfl, rfl, rfl⟩
    · rintro (⟨_, hparse, rfl, rfl⟩ | ⟨_, _, _, _, hparse, -⟩)
      · exact ⟨congrArg Except.error (Except.error.inj hparse).symm, rfl⟩
      · cases hparse
  | .ok root =>
    refine (@settles_bind_iff _ _ _ (fun _ a ↦ pure (.ok a)) (grows_eval library globalScope _)
      (fun _ ↦ grows_const _) m m' outcome).trans ?_
    simp only [settles_const_iff, yields_pure_iff, settles_eval_iff]
    constructor
    · rintro ⟨a, _, ⟨written, store', hwrites, rfl⟩, rfl, rfl⟩
      exact Or.inr ⟨root, a, written, store', rfl, hwrites, rfl, rfl⟩
    · rintro (⟨_, hparse, -⟩ | ⟨_, a, written, store', hparse, hwrites, rfl, rfl⟩)
      · cases hparse
      · obtain rfl := Except.ok.inj hparse
        exact ⟨a, _, ⟨written, store', hwrites, rfl⟩, rfl, rfl⟩

/-- A line that is not blank is answered, and the session goes on unless it asked to exit. -/
theorem settles_promptLine_iff (hblank : isBlankText line = false) {goesOn : Bool} :
    Settles (fun fuel ↦ promptLine library fuel line) m goesOn m' ↔ ∃ entry store',
      Answers library m.store line entry store' ∧
        (goesOn = true ↔ entry.outcome ≠ .ok .exit) ∧ m' = m.after store' entry.written := by
  simp only [promptLine_eq_bind_reply hblank]
  refine (@settles_bind_iff _ _ _ (fun _ ↦ reply) (grows_evalSource library line)
    (fun _ ↦ grows_const _) m m' goesOn).trans ?_
  simp only [settles_const_iff, settles_evalSource_iff]
  constructor
  · rintro ⟨_, _, hsource, hreply⟩
    rcases hsource with ⟨failure, hparse, rfl, rfl⟩ | ⟨_, a, _, _, hparse, hwrites, rfl, rfl⟩
    · obtain ⟨rfl, rfl⟩ := yields_reply_error_iff.mp hreply
      exact ⟨_, _, .refused hparse, iff_of_true rfl nofun, rfl⟩
    · obtain ⟨rfl, rfl⟩ := yields_reply_ok_iff.mp hreply
      refine ⟨_, _, .result hparse hwrites, ?_, m.after_after _ _ _ _⟩
      rw [Bool.not_eq_true', ← Bool.not_eq_true, Value.isExit_eq_true_iff, Ne, Except.ok.injEq]
  · rintro ⟨entry, store', hanswers, hgo, rfl⟩
    obtain hparse | ⟨hparse, hwrites⟩ := hanswers
    · refine ⟨_, m, Or.inl ⟨_, hparse, rfl, rfl⟩, yields_reply_error_iff.mpr ⟨?_, rfl⟩⟩
      exact hgo.mpr nofun
    · refine ⟨_, _, Or.inr ⟨_, _, _, _, hparse, hwrites, rfl, rfl⟩, ?_⟩
      refine yields_reply_ok_iff.mpr ⟨?_, ?_⟩
      · rw [Bool.eq_iff_iff, hgo, Bool.not_eq_true', ← Bool.not_eq_true, Value.isExit_eq_true_iff,
          Ne, Except.ok.injEq]
      · exact (m.after_after _ _ _ _).symm

theorem grows_promptLine (library : Library) (line : String) :
    Grows fun fuel ↦ promptLine library fuel line := by
  match hblank : isBlankText line with
  | true =>
    simp only [promptLine_eq_of_blank hblank]
    exact grows_const _
  | false =>
    simp only [promptLine_eq_bind_reply hblank]
    exact (grows_evalSource library line).bind fun _ ↦ grows_const _

theorem grows_promptLines (library : Library) (lines : List String) :
    Grows fun fuel ↦ promptLines library fuel lines := by
  induction lines with
  | nil => exact grows_const _
  | cons line lines ih =>
    refine (grows_promptLine library line).bind fun goesOn ↦ ?_
    cases goesOn with
    | true => exact ih
    | false => exact grows_const _

/-- The prompt answers the lines until they or the session end, and tells which of them did. -/
theorem settles_promptLines_iff {lines : List String} {goesOn : Bool} :
    Settles (fun fuel ↦ promptLines library fuel lines) m goesOn m' ↔ ∃ entries store',
      Converses library m.store lines entries store' ∧ (goesOn = true ↔ ¬Exits entries) ∧
        m' = m.after store' (Entry.writtenBy entries) := by
  induction lines generalizing m with
  | nil =>
    refine settles_const_iff.trans (yields_pure_iff.trans ⟨?_, ?_⟩)
    · rintro ⟨rfl, rfl⟩
      exact ⟨[], m'.store, .done, iff_of_true rfl not_exits_nil, rfl⟩
    · rintro ⟨entries, store', h, hgo, rfl⟩
      obtain _ | _ := h
      exact ⟨hgo.mpr not_exits_nil, rfl⟩
  | cons line lines ih =>
    have hrest (goesOn : Bool) : Grows fun fuel ↦
        if goesOn = true then promptLines library fuel lines else pure false := by
      cases goesOn with
      | true => exact grows_promptLines library lines
      | false => exact grows_const _
    refine (settles_bind_iff (grows_promptLine library line) hrest).trans ?_
    match hblank : isBlankText line with
    | true =>
      simp only [promptLine_eq_of_blank hblank, settles_const_iff, yields_pure_iff,
        Converses.blank_iff hblank, ← ih]
      constructor
      · rintro ⟨_, _, ⟨rfl, rfl⟩, h⟩
        exact h
      · exact fun h ↦ ⟨true, m, ⟨rfl, rfl⟩, h⟩
    | false =>
      simp only [settles_promptLine_iff hblank]
      constructor
      · rintro ⟨lineGoesOn, _, ⟨entry, store₁, hline, hgo, rfl⟩, h⟩
        -- the answer says whether the outcome was an exit, and so which rule applies
        match lineGoesOn with
        | true =>
          obtain ⟨entries, store', hentries, hall, rfl⟩ := ih.mp h
          have hexit := hgo.mp rfl
          refine ⟨_, _, .goesOn hblank hline hexit hentries, ?_, m.after_after _ _ _ _⟩
          rw [hall, exits_cons_iff, or_iff_right hexit]
        | false =>
          obtain ⟨rfl, rfl⟩ := yields_pure_iff.mp (settles_const_iff.mp h)
          have hexit := Classical.not_not.mp fun hexit ↦ Bool.false_ne_true (hgo.mpr hexit)
          refine ⟨_, _, .exits hblank hline hexit, ?_, ?_⟩
          · exact iff_of_false Bool.false_ne_true fun h ↦ h (exits_cons_iff.mpr (Or.inl hexit))
          · exact congrArg (m.after store₁) (List.append_nil _).symm
      · rintro ⟨entries, store', h, hall, rfl⟩
        obtain _ | ⟨hblank', -⟩ | ⟨-, hline, hexit, hentries⟩ | ⟨-, hline, hexit⟩ := h
        · cases hblank.symm.trans hblank'
        · rw [exits_cons_iff, or_iff_right hexit] at hall
          refine ⟨true, _, ⟨_, _, hline, iff_of_true rfl hexit, rfl⟩,
            ih.mpr ⟨_, _, hentries, hall, ?_⟩⟩
          exact (m.after_after _ _ _ _).symm
        · have hgo : false = true ↔ _ ≠ _ := iff_of_false Bool.false_ne_true fun h ↦ h hexit
          refine ⟨false, _, ⟨_, _, hline, hgo, rfl⟩, ?_⟩
          refine settles_const_iff.mpr (yields_pure_iff.mpr ⟨?_, ?_⟩)
          · exact eq_false_of_ne_true fun h ↦ hall.mp h (exits_cons_iff.mpr (Or.inl hexit))
          · exact congrArg (m.after store') (List.append_nil _)

/-- An editor that has started hands over its lines after the greeting. What is written about the
end of the lines is written when the session has not ended before. -/
theorem settles_promptOn_ok_iff {input : EditedInput} {conclusion : Conclusion} :
    Settles (fun fuel ↦ promptOn library fuel (.ok input)) m conclusion m' ↔ ∃ entries store',
      Converses library m.store input.lines entries store' ∧
        (Exits entries ∧ conclusion = ⟨0, []⟩ ∨
          ¬Exits entries ∧ conclusion = ⟨0, input.ending.complaint⟩) ∧
        m' = m.after store' (banner ++ Entry.writtenBy entries) := by
  have hconclude (goesOn : Bool) : Grows fun _ ↦
      if goesOn = true then (pure ⟨0, input.ending.complaint⟩ : Run Conclusion)
      else pure ⟨0, []⟩ := grows_const _
  have hgrows := grows_promptLines library input.lines
  have hconcludes {goesOn : Bool} {m m' : Machine} :
      Yields (if goesOn = true then (pure ⟨0, input.ending.complaint⟩ : Run Conclusion)
        else pure ⟨0, []⟩) m conclusion m' ↔
        conclusion = ⟨0, if goesOn then input.ending.complaint else []⟩ ∧ m' = m := by
    cases goesOn <;> exact yields_pure_iff
  refine (settles_bind_iff (grows_const (banner.forM Run.emit))
    fun _ ↦ hgrows.bind hconclude).trans ?_
  simp only [settles_const_iff, yields_forM_emit_iff, Machine.emitAll_eq_after,
    settles_bind_iff hgrows hconclude, settles_promptLines_iff, hconcludes]
  constructor
  · rintro ⟨_, _, rfl, goesOn, _, ⟨entries, store', hentries, hgo, rfl⟩, rfl, rfl⟩
    refine ⟨entries, store', hentries, ?_, m.after_after _ _ _ _⟩
    cases goesOn with
    | true => exact Or.inr ⟨hgo.mp rfl, rfl⟩
    | false => exact Or.inl ⟨Classical.not_not.mp fun h ↦ Bool.false_ne_true (hgo.mpr h), rfl⟩
  · rintro ⟨entries, store', hentries, hends, rfl⟩
    have hall := (m.after_after m.store store' banner (Entry.writtenBy entries)).symm
    rcases hends with ⟨hexits, rfl⟩ | ⟨hexits, rfl⟩
    · exact ⟨(), _, rfl, false, _, ⟨entries, store', hentries,
        iff_of_false Bool.false_ne_true (· hexits), rfl⟩, rfl, hall⟩
    · exact ⟨(), _, rfl, true, _, ⟨entries, store', hentries, iff_of_true rfl hexits, rfl⟩, rfl,
        hall⟩

theorem settles_promptOn_error_iff {reason : String} {conclusion : Conclusion} :
    Settles (fun fuel ↦ promptOn library fuel (.error reason)) m conclusion m' ↔
      conclusion = ⟨1, ["Failed to initialize line editor: " ++ reason]⟩ ∧ m' = m :=
  settles_const_iff.trans yields_pure_iff

theorem grows_promptOn (library : Library) (outcome : Except String EditedInput) :
    Grows fun fuel ↦ promptOn library fuel outcome := by
  cases outcome with
  | error => exact grows_const _
  | ok input =>
    exact (grows_const _).bind fun _ ↦ (grows_promptLines library input.lines).bind fun _ ↦
      grows_const _

/-! ## The program -/

/-- On a host, the program comes to an end with some fuel and leaves the transcript behind. -/
def Invocation.EndsOn (host : Host) (invocation : Invocation) (transcript : Transcript) : Prop :=
  ∃ fuel, invocation.runOn host fuel = .ok transcript

variable {options : Options} {host : Host}

/-- An interactive run loads the files and starts the prompt. -/
theorem settles_run_iff (hinteractive : options.runsInteractive = true) {tree : FileTree}
    {stdin : String} {conclusion : Conclusion} :
    Settles (fun fuel ↦ options.run host fuel tree stdin) m conclusion m' ↔ ∃ files store,
      InTurn (LoadsFile tree.library) m.store (options.loads host.walk tree) files store ∧
        Settles (fun fuel ↦ promptOn tree.library fuel (host.editor stdin))
          (m.after store (Entry.writtenBy files)) conclusion m' := by
  simp only [Options.run, hinteractive, if_true]
  refine (@settles_bind_iff _ _ (fun fuel ↦ (options.loads host.walk tree).forM _)
    (fun fuel _ ↦ promptOn tree.library fuel (host.editor stdin))
    (.forM (grows_loadAndReport tree.library) _) (fun _ ↦ grows_promptOn tree.library _) m m'
    conclusion).trans ?_
  simp only [settles_forM_iff (grows_loadAndReport tree.library) (logs_loadAndReport tree.library)]
  constructor
  · rintro ⟨_, _, ⟨files, store, hfiles, rfl⟩, hprompt⟩
    exact ⟨files, store, hfiles, hprompt⟩
  · rintro ⟨files, store, hfiles, hprompt⟩
    exact ⟨(), _, ⟨files, store, hfiles, rfl⟩, hprompt⟩

namespace Invocation

variable {invocation : Invocation} {t : Transcript}

/-- A run of the program ends with what its options come to on a fresh machine. -/
theorem runOn_eq_ok_iff {fuel : Nat} (hcommand : invocation.command = .ok (.run options)) :
    invocation.runOn host fuel = .ok t ↔ ∃ conclusion m',
      Yields (options.run host fuel invocation.tree invocation.stdin) (Machine.start .empty)
        conclusion m' ∧ t = ⟨conclusion.exitCode, m'.output.lines.toList, conclusion.stderr⟩ := by
  rw [Invocation.runOn, hcommand]
  dsimp only [Yields, StateT.run]
  match options.run host fuel invocation.tree invocation.stdin (Machine.start .empty) with
  | .error stop => exact iff_of_false nofun fun ⟨_, _, h, _⟩ ↦ nomatch h
  | .ok (conclusion, machine) =>
    constructor
    · exact fun h ↦ ⟨conclusion, machine, rfl, (Except.ok.inj h).symm⟩
    · rintro ⟨_, _, h, rfl⟩
      obtain ⟨rfl, rfl⟩ := Prod.mk.inj (Except.ok.inj h)
      rfl

/-- An interactive run ends when the files are loaded and the prompt has ended. -/
theorem endsOn_iff_settles (hcommand : invocation.command = .ok (.run options))
    (hinteractive : options.runsInteractive = true) :
    invocation.EndsOn host t ↔ ∃ files store conclusion m',
      InTurn (LoadsFile invocation.tree.library) (Machine.start .empty).store
        (options.loads host.walk invocation.tree) files store ∧
      Settles (fun fuel ↦ promptOn invocation.tree.library fuel (host.editor invocation.stdin))
        ((Machine.start .empty).after store (Entry.writtenBy files)) conclusion m' ∧
      t = ⟨conclusion.exitCode, m'.output.lines.toList, conclusion.stderr⟩ := by
  simp only [EndsOn, runOn_eq_ok_iff hcommand]
  constructor
  · rintro ⟨fuel, conclusion, m', hrun, rfl⟩
    obtain ⟨files, store, hfiles, hprompt⟩ := (settles_run_iff hinteractive).mp ⟨fuel, hrun⟩
    exact ⟨files, store, conclusion, m', hfiles, hprompt, rfl⟩
  · rintro ⟨files, store, conclusion, m', hfiles, hprompt, rfl⟩
    obtain ⟨fuel, hrun⟩ := (settles_run_iff hinteractive).mpr ⟨files, store, hfiles, hprompt⟩
    exact ⟨fuel, conclusion, m', hrun, rfl⟩

/-- **An interactive run is its record.** When the line editor starts, the run comes to an end
exactly when it has a record. Then its exit code is zero, its output is what the entries of the
record wrote, and it complains of how reading the lines ended unless the session was ended
before. -/
theorem endsOn_iff (hcommand : invocation.command = .ok (.run options))
    (hinteractive : options.runsInteractive = true) {input : EditedInput}
    (hinput : host.editor invocation.stdin = .ok input) :
    invocation.EndsOn host t ↔ ∃ record,
      options.Records host.walk invocation.tree input.lines record ∧
        (Exits record.exchanges ∧ t = ⟨0, record.stdout, []⟩ ∨
          ¬Exits record.exchanges ∧ t = ⟨0, record.stdout, input.ending.complaint⟩) := by
  have hlines (record : Record) (store store' : Store) :
      (((Machine.start .empty).after store (Entry.writtenBy record.files)).after store'
        (banner ++ Entry.writtenBy record.exchanges)).output.lines.toList = record.stdout := by
    rw [Machine.after_after]
    exact Output.toList_lines_writeAll rfl record.stdout
  rw [endsOn_iff_settles hcommand hinteractive, hinput]
  simp only [settles_promptOn_ok_iff]
  constructor
  · rintro ⟨files, store, _, _, hfiles, ⟨exchanges, store', hexchanges, hends, rfl⟩, rfl⟩
    refine ⟨⟨files, exchanges⟩, ⟨store, store', hfiles, hexchanges⟩, ?_⟩
    rw [hlines ⟨files, exchanges⟩]
    exact hends.imp (And.imp_right fun h ↦ by rw [h]) (And.imp_right fun h ↦ by rw [h])
  · rintro ⟨record, ⟨store, store', hfiles, hexchanges⟩, hends⟩
    rcases hends with ⟨hexits, rfl⟩ | ⟨hexits, rfl⟩
    · exact ⟨record.files, store, _, _, hfiles,
        ⟨record.exchanges, store', hexchanges, Or.inl ⟨hexits, rfl⟩, rfl⟩, by rw [hlines]⟩
    · exact ⟨record.files, store, _, _, hfiles,
        ⟨record.exchanges, store', hexchanges, Or.inr ⟨hexits, rfl⟩, rfl⟩, by rw [hlines]⟩

/-- When the line editor does not start, the files are loaded, and then the program fails without a
greeting. -/
theorem endsOn_of_refused_iff (hcommand : invocation.command = .ok (.run options))
    (hinteractive : options.runsInteractive = true) {reason : String}
    (hrefused : host.editor invocation.stdin = .error reason) :
    invocation.EndsOn host t ↔ ∃ files store,
      InTurn (LoadsFile invocation.tree.library) (Machine.start .empty).store
        (options.loads host.walk invocation.tree) files store ∧
      t = ⟨1, Entry.writtenBy files, ["Failed to initialize line editor: " ++ reason]⟩ := by
  have hlines (store : Store) (lines : List String) :
      ((Machine.start .empty).after store lines).output.lines.toList = lines :=
    Output.toList_lines_writeAll rfl lines
  rw [endsOn_iff_settles hcommand hinteractive, hrefused]
  simp only [settles_promptOn_error_iff]
  constructor
  · rintro ⟨files, store, _, _, hfiles, ⟨rfl, rfl⟩, rfl⟩
    exact ⟨files, store, hfiles, by rw [hlines]⟩
  · rintro ⟨files, store, hfiles, rfl⟩
    exact ⟨files, store, _, _, hfiles, ⟨rfl, rfl⟩, by rw [hlines]⟩

end Invocation

end QuoteLisp
