import QuoteLisp.Proofs.Memory.Copy

/-!
# Evaluation in memory does the same

Evaluation with linked values and evaluation with plain ones go side by side. With the same fuel
both have a result or both stop for the same reason (`Run.Related`), and when they began in machines
that mirror each other, they end in such machines with results that differ in links only
(`simulates_eval`).

The proof follows the evaluator. Each part of it is shown to do the same in memory if the evaluator
that it calls does (`Simulates`). What a caller holds in the meantime is safe: the closures in it
have bound afterwards what they had bound before (`After`). That is because their scopes are their
own, and neither a definition nor a frame gets hold of them.
-/

namespace QuoteLisp

open Run Store Value

/-! ## Runs that end alike -/

namespace Run

variable {α β γ δ : Type} {R : α → Machine → β → Machine → Prop}
  {S : γ → Machine → δ → Machine → Prop} {m m' μ μ' : Machine}

/-- Both outcomes are results, which are related, or both runs have stopped for the same reason. -/
def Related (R : α → Machine → β → Machine → Prop) :
    Except Stop (α × Machine) → Except Stop (β × Machine) → Prop
  | .ok (a, m), .ok (b, μ) => R a m b μ
  | .error stop, .error stop' => stop = stop'
  | _, _ => False

theorem Related.bind {x : Run α} {y : Run β} {f : α → Run γ} {g : β → Run δ}
    (h : Related R (x m) (y μ))
    (hrest : ∀ a m' b μ', R a m' b μ' → Related S (f a m') (g b μ')) :
    Related S ((x >>= f) m) ((y >>= g) μ) := by
  change Related S (StateT.bind x f m) (StateT.bind y g μ)
  rw [StateT.bind, StateT.bind]
  match hx : x m, hy : y μ with
  | .ok (a, m'), .ok (b, μ') =>
    rw [hx, hy] at h
    exact hrest a m' b μ' h
  | .error stop, .error stop' =>
    rw [hx, hy] at h
    exact h
  | .ok _, .error _ | .error _, .ok _ =>
    rw [hx, hy] at h
    exact h.elim

theorem Related.mono {x : Run α} {y : Run β} {R' : α → Machine → β → Machine → Prop}
    (h : Related R (x m) (y μ)) (hR : ∀ a m' b μ', R a m' b μ' → R' a m' b μ') :
    Related R' (x m) (y μ) := by
  match hx : x m, hy : y μ with
  | .ok (a, m'), .ok (b, μ') =>
    rw [hx, hy] at h
    exact hR a m' b μ' h
  | .error stop, .error stop' =>
    rw [hx, hy] at h
    exact h
  | .ok _, .error _ | .error _, .ok _ =>
    rw [hx, hy] at h
    exact h.elim

theorem related_of_yields {x : Run α} {y : Run β} {a : α} {b : β} (hx : Yields x m a m')
    (hy : Yields y μ b μ') (h : R a m' b μ') : Related R (x m) (y μ) := by
  rw [hx, hy]
  exact h

theorem related_pure {a : α} {b : β} (h : R a m b μ) :
    Related R ((pure a : Run α) m) ((pure b : Run β) μ) := h

theorem Related.exists_right {x : Run α} {y : Run β} {a : α} (h : Related R (x m) (y μ))
    (hx : Yields x m a m') : ∃ b μ', Yields y μ b μ' ∧ R a m' b μ' := by
  rw [hx] at h
  match hy : y μ with
  | .ok (b, μ') =>
    rw [hy] at h
    exact ⟨b, μ', hy, h⟩
  | .error stop =>
    rw [hy] at h
    exact h.elim

theorem Related.exists_left {x : Run α} {y : Run β} {b : β} (h : Related R (x m) (y μ))
    (hy : Yields y μ b μ') : ∃ a m', Yields x m a m' ∧ R a m' b μ' := by
  rw [hy] at h
  match hx : x m with
  | .ok (a, m') =>
    rw [hx] at h
    exact ⟨a, m', hx, h⟩
  | .error stop =>
    rw [hx] at h
    exact h.elim

end Run

namespace Memory

/-! ## Machines in memory -/

/-- A machine with linked values represents one with plain values. -/
structure Mirrors (place : ScopeId → ScopeId) (contents : ScopeId → Bindings)
    (held : Option ScopeId → Nat) (m μ : Machine) : Prop where
  represents : Represents place contents held m.store μ.store
  output_eq : μ.output = m.output

/-- What was done has left machines that mirror each other. The links of its result are counted by
`got`, and closures that were held besides have bound what they had. -/
structure After (place : ScopeId → ScopeId) (contents : ScopeId → Bindings)
    (held : Option ScopeId → Nat) (m : Machine) (got : Option ScopeId → Nat)
    (contents' : ScopeId → Bindings) (m' μ' : Machine) : Prop where
  mirrors : Mirrors place contents' (fun p ↦ got p + held p) m' μ'
  contents_eq (id : ScopeId) : 0 < held (some id) → contents' id = contents id
  changesOnly : m.store.ChangesOnly (fun _ ↦ True) m'.store

/-- The results are the same but for links. -/
def SameValue (place : ScopeId → ScopeId) (contents : ScopeId → Bindings)
    (held : Option ScopeId → Nat) (m : Machine) (a : Value) (m' : Machine) (w : Value)
    (μ' : Machine) : Prop :=
  ∃ contents', After place contents held m w.links contents' m' μ' ∧ w.unlink contents' = a

/-- The lists of results are the same but for links. -/
def SameValues (place : ScopeId → ScopeId) (contents : ScopeId → Bindings)
    (held : Option ScopeId → Nat) (m : Machine) (as : List Value) (m' : Machine) (ws : List Value)
    (μ' : Machine) : Prop :=
  ∃ contents', After place contents held m (linksAll · ws) contents' m' μ' ∧
    ws.map (unlink contents') = as

/-- What was done for its effects has left machines that mirror each other. -/
def SameEffects (place : ScopeId → ScopeId) (contents : ScopeId → Bindings)
    (held : Option ScopeId → Nat) (m : Machine) (_ : Unit) (m' : Machine) (_ : Unit)
    (μ' : Machine) : Prop :=
  ∃ contents', After place contents held m (fun _ ↦ 0) contents' m' μ'

/-- The second evaluator does with linked values what the first does with plain ones. -/
def Simulates (e e' : Evaluator) : Prop :=
  ∀ ⦃place contents held m μ scope ids⦄ ⦃w : Value⦄, m.store.HasChain scope ids →
    Mirrors place contents (fun p ↦ w.links p + held p) m μ →
    Related (SameValue place contents held m) (e scope (w.unlink contents) m)
      (e' (place scope) w μ)

variable {place : ScopeId → ScopeId} {contents contents' contents'' : ScopeId → Bindings}
  {held held' got got' later : Option ScopeId → Nat} {m m' m'' μ μ' μ'' : Machine}
  {scope : ScopeId} {ids : List ScopeId} {e e' : Evaluator} {library : Library}

theorem Mirrors.mono (h : Mirrors place contents held m μ) (hheld : ∀ p, held' p ≤ held p) :
    Mirrors place contents held' m μ :=
  ⟨h.represents.mono hheld, h.output_eq⟩

/-- Nothing was done. -/
theorem After.refl (h : Mirrors place contents held' m μ) (hheld : ∀ p, got p + held p ≤ held' p) :
    After place contents held m got contents m μ :=
  ⟨h.mono hheld, fun _ _ ↦ rfl, .refl _ _⟩

/-- First one thing was done, while what the next one needs was held, and then that one. -/
theorem After.trans (h : After place contents (fun p ↦ later p + held p) m got contents' m' μ')
    (h' : After place contents' (fun p ↦ got p + held p) m' got' contents'' m'' μ'') :
    After place contents held m (fun p ↦ got p + got' p) contents'' m'' μ'' where
  mirrors := h'.mirrors.mono fun p ↦ by omega
  contents_eq id hid := (h'.contents_eq id (Nat.add_pos_right _ hid)).trans
    (h.contents_eq id (Nat.add_pos_right _ hid))
  changesOnly := h.changesOnly.trans h'.changesOnly

/-- First one thing was done and then another one with its result. -/
theorem After.next (h : After place contents held m got contents' m' μ')
    (h' : After place contents' held m' got' contents'' m'' μ'') :
    After place contents held m got' contents'' m'' μ'' where
  mirrors := h'.mirrors
  contents_eq id hid := (h'.contents_eq id hid).trans (h.contents_eq id hid)
  changesOnly := h.changesOnly.trans h'.changesOnly

theorem After.mono (h : After place contents held m got contents' m' μ')
    (hgot : ∀ p, got' p ≤ got p) : After place contents held m got' contents' m' μ' :=
  { h with mirrors := h.mirrors.mono fun p ↦ Nat.add_le_add_right (hgot p) _ }

/-- What was held besides is what it was. -/
theorem After.unlink_eq {w : Value}
    (h : After place contents (fun p ↦ w.links p + held p) m got contents' m' μ') :
    w.unlink contents' = w.unlink contents :=
  unlink_congr w fun id hid ↦ h.contents_eq id (Nat.add_pos_left hid _)

theorem After.map_unlink_eq {ws : List Value}
    (h : After place contents (fun p ↦ linksAll p ws + held p) m got contents' m' μ') :
    ws.map (unlink contents') = ws.map (unlink contents) :=
  map_unlink_congr ws fun id hid ↦ h.contents_eq id (Nat.add_pos_left hid _)

/-- A value is its own result. -/
theorem sameValue_refl {w : Value} (h : Mirrors place contents (fun p ↦ w.links p + held p) m μ) :
    SameValue place contents held m (w.unlink contents) m w μ :=
  ⟨contents, .refl h fun _ ↦ Nat.le_refl _, rfl⟩

/-- A value without closures is the same, linked or plain. -/
theorem sameValue_of_links_eq_zero {w : Value} (hw : ∀ p, w.links p = 0)
    (hunlink : w.unlink contents = w) (h : Mirrors place contents held m μ) :
    SameValue place contents held m w m w μ :=
  ⟨contents, .refl h fun p ↦ by rw [hw, Nat.zero_add], hunlink⟩

/-! ## Cells -/

theorem Simulates.mapM (hsim : Simulates e e') {ws : List Value}
    (hchain : m.store.HasChain scope ids)
    (h : Mirrors place contents (fun p ↦ linksAll p ws + held p) m μ) :
    Related (SameValues place contents held m) ((ws.map (unlink contents)).mapM (e scope) m)
      (ws.mapM (e' (place scope)) μ) := by
  induction ws generalizing contents held m μ with
  | nil =>
    rw [List.map_nil, List.mapM_nil, List.mapM_nil]
    exact related_pure ⟨contents, .refl h fun _ ↦ Nat.le_refl _, rfl⟩
  | cons w ws ih =>
    rw [List.map_cons, List.mapM_cons, List.mapM_cons]
    have hfirst : Mirrors place contents (fun p ↦ w.links p + (linksAll p ws + held p)) m μ :=
      h.mono fun p ↦ by rw [linksAll_cons, Nat.add_assoc]
    refine (hsim hchain hfirst).bind ?_
    rintro a m₁ b μ₁ ⟨contents₁, hafter, rfl⟩
    rw [← hafter.map_unlink_eq]
    have hnext : Mirrors place contents₁ (fun p ↦ linksAll p ws + (b.links p + held p)) m₁ μ₁ :=
      hafter.mirrors.mono fun p ↦ by omega
    refine (ih (hafter.changesOnly.hasChain hchain) hnext).bind ?_
    rintro as m₂ bs μ₂ ⟨contents₂, hafter₂, rfl⟩
    refine related_pure ⟨contents₂, (hafter.trans hafter₂).mono fun p ↦ by rw [linksAll_cons], ?_⟩
    rw [List.map_cons, hafter₂.unlink_eq]

/-! ## Effects -/

theorem After.emit (h : After place contents held m got contents' m' μ') (line : String) :
    After place contents held m got contents' (m'.emit line) (μ'.emit line) where
  mirrors := ⟨h.mirrors.represents, congrArg (·.write line) h.mirrors.output_eq⟩
  contents_eq := h.contents_eq
  changesOnly := h.changesOnly

theorem After.emitAll (h : After place contents held m got contents' m' μ') (lines : List String) :
    After place contents held m got contents' (m'.emitAll lines) (μ'.emitAll lines) := by
  induction lines generalizing m' μ' with
  | nil => exact h
  | cons line lines ih => exact ih (h.emit line)

theorem Simulates.forM_runForm (hsim : Simulates e e') {ws : List Value}
    (hchain : m.store.HasChain scope ids)
    (h : Mirrors place contents (fun p ↦ linksAll p ws + held p) m μ) :
    Related (SameEffects place contents held m)
      ((ws.map (unlink contents)).forM (runForm e scope) m)
      (ws.forM (runForm e' (place scope)) μ) := by
  induction ws generalizing contents held m μ with
  | nil => exact related_pure ⟨contents, .refl h fun _ ↦ Nat.le_refl _⟩
  | cons w ws ih =>
    have hfirst : Mirrors place contents (fun p ↦ w.links p + (linksAll p ws + held p)) m μ :=
      h.mono fun p ↦ by rw [linksAll_cons, Nat.add_assoc]
    have hform : Related (SameEffects place contents (fun p ↦ linksAll p ws + held p) m)
        (runForm e scope (w.unlink contents) m) (runForm e' (place scope) w μ) := by
      refine (hsim hchain hfirst).bind ?_
      rintro a m₁ b μ₁ ⟨contents₁, hafter, rfl⟩
      rw [isError_unlink, display_unlink]
      have hdropped : After place contents (fun p ↦ linksAll p ws + held p) m (fun _ ↦ 0) contents₁
          m₁ μ₁ := hafter.mono fun _ ↦ Nat.zero_le _
      split
      · exact related_of_yields (a := ()) (b := ()) rfl rfl ⟨contents₁, hdropped.emit _⟩
      · exact related_pure ⟨contents₁, hdropped⟩
    refine hform.bind ?_
    rintro _ m₁ _ μ₁ ⟨contents₁, hafter⟩
    rw [← hafter.map_unlink_eq]
    have hnext : Mirrors place contents₁ (fun p ↦ linksAll p ws + (0 + held p)) m₁ μ₁ :=
      hafter.mirrors.mono fun p ↦ by omega
    refine Related.mono (ih (hafter.changesOnly.hasChain hchain) hnext) ?_
    rintro _ m₂ _ μ₂ ⟨contents₂, hafter₂⟩
    exact ⟨contents₂, hafter.trans hafter₂⟩

/-! ## Requests -/

theorem linksAll_fileForms {path : String} {outcome : Except ReadError String} {forms : List Value}
    (h : fileForms path outcome = .ok forms) (p : Option ScopeId) : linksAll p forms = 0 := by
  rw [fileForms] at h
  cases hparse : Node.parseFile path outcome with
  | error failure =>
    rw [hparse] at h
    cases h
  | ok root =>
    rw [hparse] at h
    obtain rfl := Except.ok.inj h
    rw [linksAll_forms, links_ofNode]

theorem Simulates.loadFile (hsim : Simulates e e') (hchain : m.store.HasChain scope ids)
    (h : Mirrors place contents held m μ) (path : String) :
    Related (SameValue place contents held m) (loadFile library e scope path m)
      (loadFile library e' (place scope) path μ) := by
  rw [QuoteLisp.loadFile, QuoteLisp.loadFile]
  cases library.read? path with
  | none => exact rfl
  | some outcome =>
    dsimp only
    cases hforms : fileForms path outcome with
    | error failure => exact related_pure (sameValue_of_links_eq_zero (fun _ ↦ rfl) rfl h)
    | ok forms =>
      have hlinks := linksAll_fileForms hforms
      have hforms : Mirrors place contents (fun p ↦ linksAll p forms + held p) m μ :=
        h.mono fun p ↦ by rw [hlinks, Nat.zero_add]
      have hrun := hsim.forM_runForm hchain hforms
      rw [map_unlink_eq_self forms hlinks] at hrun
      refine hrun.bind ?_
      rintro _ m₁ _ μ₁ ⟨contents₁, hafter⟩
      exact related_pure ⟨contents₁, hafter, rfl⟩

theorem Simulates.perform (hsim : Simulates e e') {wanted : Request}
    (hchain : m.store.HasChain scope ids)
    (h : Mirrors place contents (fun p ↦ wanted.links p + held p) m μ) :
    Related (SameValue place contents held m)
      ((wanted.unlink contents).perform library e scope m)
      (wanted.perform library e' (place scope) μ) := by
  cases wanted with
  | give v => exact related_pure (sameValue_refl h)
  | evaluate cells =>
    have hcells : Mirrors place contents (fun p ↦ (sexpr cells).links p + held p) m μ :=
      h.mono fun p ↦ by rw [links_sexpr, Request.links]
    have hform := hsim hchain hcells
    rwa [unlink_sexpr] at hform
  | bind target entries =>
    have hbound := h.represents.bindAll hchain target
    exact related_of_yields (a := .unit) (b := .unit) rfl rfl
      ⟨contents, ⟨⟨hbound.mono fun p ↦ (Nat.zero_add _).le, h.output_eq⟩, fun _ _ ↦ rfl,
        (m.store.changesOnly_bindAll target scope _).mono fun _ _ ↦ trivial⟩, rfl⟩
  | load path => exact hsim.loadFile hchain (h.mono fun p ↦ Nat.le_add_left _ _) path
  | print line =>
    have hafter : After place contents held m (links · .unit) contents m μ :=
      .refl h fun _ ↦ Nat.le_refl _
    exact related_of_yields (a := .unit) (b := .unit) rfl rfl ⟨contents, hafter.emit line, rfl⟩
  | printScope =>
    have hafter : After place contents held m (links · .unit) contents m μ :=
      .refl h fun _ ↦ Nat.le_refl _
    have hlines : (m.store.bindings scope).lines = (μ.store.bindings (place scope)).lines := by
      rw [h.represents.bindings_eq hchain.isSome_scope?, Bindings.lines_unlink]
    refine related_of_yields (a := .unit) (b := .unit)
      (yields_get_bind_iff.mpr (yields_bind_iff.mpr
        ⟨(), _, yields_forM_emit_iff.mpr rfl, yields_pure_iff.mpr ⟨rfl, rfl⟩⟩))
      (yields_get_bind_iff.mpr (yields_bind_iff.mpr
        ⟨(), _, yields_forM_emit_iff.mpr rfl, yields_pure_iff.mpr ⟨rfl, rfl⟩⟩))
      ⟨contents, ?_, rfl⟩
    rw [hlines]
    exact hafter.emitAll _

/-! ## Applying functions -/

theorem callPrimitive_of_new {operation : Primitive} {args body : List Value}
    {formals : List String} (h : operation.request args = .ok (.give (.closure formals body [])))
    (library : Library) (e : Evaluator) (scope : ScopeId) (μ : Machine) :
    Yields (callPrimitive library e scope operation args) μ
      (.closure formals body (linkTo μ.store.nextId))
      { μ with store := μ.store.push ⟨[], none⟩ } := by
  rw [callPrimitive, h]
  rfl

theorem callPrimitive_of_not_new {operation : Primitive} {args : List Value} {wanted : Request}
    (h : operation.request args = .ok wanted)
    (hnew : ∀ formals body, wanted ≠ .give (.closure formals body []))
    (library : Library) (e : Evaluator) (scope : ScopeId) :
    callPrimitive library e scope operation args = wanted.perform library e scope := by
  rw [callPrimitive, h]
  split
  · cases ‹Except.ok wanted = _›
  · rename_i formals body heq
    exact absurd (Except.ok.inj heq) (hnew formals body)
  · rename_i heq
    rw [Except.ok.inj heq]

/-- A closure that is linked to a vacant scope is, in its plain form, one that has bound what the
scope binds. -/
theorem sameValue_adopt {formals : List String} {body : List Value} {link bindings : Bindings}
    {own : ScopeId}
    (h : Mirrors place contents (fun p ↦ linksAll p body + held p) m μ)
    (hown : Vacant place (fun p ↦ linksAll p body + held p) m.store μ.store own bindings)
    (hlink : linked? link = some own) :
    SameValue place contents held m
      (.closure formals (body.map (unlink contents)) (bindings.unlink contents)) m
      (.closure formals body link) μ := by
  have hne {id : ScopeId} (hid : 0 < linksAll (some id) body + held (some id)) : id ≠ own :=
    hown.ne (Nat.add_pos_right _ hid)
  refine ⟨_, ⟨⟨(h.represents.adopt hown).mono fun p ↦ ?_, h.output_eq⟩, fun id hid ↦ ?_, .refl _ _⟩,
    ?_⟩
  · rw [links_closure, hlink, Nat.add_assoc]
  · exact Function.update_of_ne (hne (Nat.add_pos_right _ hid)) _ _
  · rw [unlink_closure, hlink, Option.elim_some, Function.update_self,
      map_unlink_congr body fun id hid ↦ Function.update_of_ne (hne (Nat.add_pos_left hid _)) _ _]

theorem Simulates.callPrimitive (hsim : Simulates e e') {operation : Primitive} {args : List Value}
    (hchain : m.store.HasChain scope ids)
    (h : Mirrors place contents (fun p ↦ linksAll p args + held p) m μ) :
    Related (SameValue place contents held m)
      (operation.call library e scope (args.map (unlink contents)) m)
      (callPrimitive library e' (place scope) operation args μ) := by
  rw [Primitive.call, operation.request_unlink]
  cases hrequest : operation.request args with
  | error cause =>
    rw [Memory.callPrimitive, hrequest]
    exact related_pure (sameValue_of_links_eq_zero (fun _ ↦ rfl) rfl
      (h.mono fun p ↦ Nat.le_add_left _ _))
  | ok wanted =>
    have hlinks (p : Option ScopeId) : wanted.links p ≤ linksAll p args ∨
        ∃ formals body, wanted = .give (.closure formals body []) ∧
          linksAll p body ≤ linksAll p args := operation.links_request_le args wanted hrequest
    by_cases hnew : ∃ formals body, wanted = .give (.closure formals body [])
    · obtain ⟨formals, body, rfl⟩ := hnew
      have hbody : Represents place contents
          (fun p ↦ Bindings.links p [] + (linksAll p body + held p)) m.store μ.store := by
        refine h.represents.mono fun p ↦ (Nat.zero_add _).trans_le (Nat.add_le_add_right ?_ _)
        rcases hlinks p with hle | ⟨formals', body', heq, hle⟩
        · rw [Request.links, links_closure] at hle
          omega
        · cases heq
          exact hle
      obtain ⟨hpush, hvacant⟩ := hbody.push
      have hmirrors : Mirrors place contents (fun p ↦ linksAll p body + held p) m
          { μ with store := μ.store.push ⟨[], none⟩ } := ⟨hpush, h.output_eq⟩
      exact related_of_yields (yields_pure_iff.mpr ⟨(unlink_closure ..).symm, rfl⟩)
        (callPrimitive_of_new hrequest library e' (place scope) μ)
        (sameValue_adopt hmirrors hvacant (linked?_linkTo _))
    · rw [callPrimitive_of_not_new hrequest fun formals body heq ↦ hnew ⟨formals, body, heq⟩]
      have hwanted : Mirrors place contents (fun p ↦ wanted.links p + held p) m μ := by
        refine h.mono fun p ↦ Nat.add_le_add_right ((hlinks p).resolve_right ?_) _
        rintro ⟨formals, body, rfl, -⟩
        exact hnew ⟨formals, body, rfl⟩
      exact hsim.perform hchain hwanted

/-- A closure that is held has a scope. -/
theorem Mirrors.exists_own {closure : Closure} {args : List Value}
    (h : Mirrors place contents
      (fun p ↦ (Function.closure closure).toValue.links p + linksAll p args + held p) m μ) :
    ∃ own, linked? closure.bound = some own := by
  refine Option.ne_none_iff_exists'.mp fun hnone ↦ ?_
  have hlinked := h.represents.houses.linked
  rw [Function.toValue, links_closure, if_pos hnone] at hlinked
  omega

/-- The names that are bound in the scope of a closure are those that its plain form binds, so both
take the same arguments. -/
theorem Mirrors.take_eq {closure : Closure} {args : List Value} {own : ScopeId}
    (hown : linked? closure.bound = some own)
    (h : Mirrors place contents
      (fun p ↦ (Function.closure closure).toValue.links p + linksAll p args + held p) m μ) :
    Closure.take ⟨closure.formals, closure.body.map (unlink contents), contents own⟩
        (args.map (unlink contents))
      = Prod.map id (Bindings.unlink contents) <$>
          Closure.take { closure with bound := μ.store.bindings own } args := by
  have hcontents : contents own = (μ.store.bindings own).unlink contents := by
    refine h.represents.contents_eq own (Nat.add_pos_right _ ?_)
    rw [Function.toValue, links_closure, if_pos hown]
    omega
  rw [Closure.take, Closure.take, List.length_map, hcontents]
  exact bindFormals_unlink _ _ _ _

theorem applyClosure_apply {closure : Closure} {own : ScopeId}
    (hown : linked? closure.bound = some own) (e : Evaluator) (caller : ScopeId)
    (args : List Value) (μ : Machine) :
    applyClosure e caller closure args μ
      = (match Closure.take { closure with bound := μ.store.bindings own } args with
        | .error cause => return cause.toValue
        | .ok ([], bound) => do
          modifyStore fun store ↦ (store.setBindings own bound).setParent own caller
          let result ← e own (.sexpr closure.body)
          modifyStore (·.drop own)
          return result
        | .ok (formal :: formals, bound) => do
          modifyStore (·.setBindings own bound)
          return .closure (formal :: formals) closure.body closure.bound : Run Value) μ := by
  rw [applyClosure, hown]
  rfl

/-- When a closure has taken arguments, what it binds can be put in its scope, which is vacant
then. -/
theorem Mirrors.setBindings {closure : Closure} {args : List Value} {own : ScopeId}
    {left : List String} {bound : Bindings} (hown : linked? closure.bound = some own)
    (htake : Closure.take { closure with bound := μ.store.bindings own } args = .ok (left, bound))
    (h : Mirrors place contents
      (fun p ↦ (Function.closure closure).toValue.links p + linksAll p args + held p) m μ) :
    Mirrors place contents (fun p ↦ linksAll p closure.body + held p) m
        { μ with store := μ.store.setBindings own bound } ∧
      Vacant place (fun p ↦ linksAll p closure.body + held p) m.store
        (μ.store.setBindings own bound) own bound := by
  have hle (p : Option ScopeId) :
      bound.links p + (if some own = p then 1 else 0) + (linksAll p closure.body + held p)
        ≤ (μ.store.bindings own).links p +
          ((Function.closure closure).toValue.links p + linksAll p args + held p) := by
    have hbound : bound.links p ≤ linksAll p args + (μ.store.bindings own).links p :=
      links_bindFormals_le _ _ _ _ _ htake
    rw [Function.toValue, links_closure, hown]
    omega
  obtain ⟨hset, hvacant⟩ := h.represents.setBindings hle
  exact ⟨⟨hset, h.output_eq⟩, hvacant⟩

/-- When a closure has taken its last argument, its scope is linked to the caller's. That scope is
the place of the frame in which the body is evaluated. -/
theorem Mirrors.enter {closure : Closure} {args : List Value} {own : ScopeId} {bound : Bindings}
    (hown : linked? closure.bound = some own)
    (htake : Closure.take { closure with bound := μ.store.bindings own } args = .ok ([], bound))
    (hchain : m.store.HasChain scope ids)
    (h : Mirrors place contents
      (fun p ↦ (Function.closure closure).toValue.links p + linksAll p args + held p) m μ) :
    Mirrors (Function.update place m.store.nextId own) contents
      (fun p ↦ (sexpr closure.body).links p + held p) (m.enter (bound.unlink contents) scope)
      { μ with store := (μ.store.setBindings own bound).setParent own (place scope) } := by
  obtain ⟨hset, hvacant⟩ := h.setBindings hown htake
  refine ⟨(hset.represents.enter hvacant hchain.isSome_scope?).mono fun p ↦ ?_, h.output_eq⟩
  rw [links_sexpr]

theorem Simulates.applyClosure (hsim : Simulates e e') {closure : Closure} {args : List Value}
    {own : ScopeId} (hown : linked? closure.bound = some own) (hchain : m.store.HasChain scope ids)
    (h : Mirrors place contents
      (fun p ↦ (Function.closure closure).toValue.links p + linksAll p args + held p) m μ) :
    Related (SameValue place contents held m)
      (Closure.apply e scope ⟨closure.formals, closure.body.map (unlink contents), contents own⟩
        (args.map (unlink contents)) m)
      (applyClosure e' (place scope) closure args μ) := by
  rw [Closure.apply, h.take_eq hown, applyClosure_apply hown]
  rcases htake : Closure.take { closure with bound := μ.store.bindings own } args with
    cause | ⟨_ | ⟨formal, formals⟩, bound⟩
  · exact related_pure (sameValue_of_links_eq_zero (fun _ ↦ rfl) rfl
      (h.mono fun p ↦ Nat.le_add_left _ _))
  · -- the scope of the closure becomes the frame, in which its body is evaluated
    have hbody := h.enter hown htake hchain
    have heval := hsim (hchain.push_nextId (bound.unlink contents)) hbody
    rw [unlink_sexpr, Function.update_self] at heval
    change Related _
      ((e m.store.nextId (.sexpr (closure.body.map (unlink contents))) >>= fun result ↦ do
        modifyStore Store.pop
        return result : Run Value) (m.enter (bound.unlink contents) scope))
      ((e' own (.sexpr closure.body) >>= fun result ↦ do
        modifyStore (·.drop own)
        return result : Run Value)
        { μ with store := (μ.store.setBindings own bound).setParent own (place scope) })
    refine heval.bind ?_
    rintro a m₁ b μ₁ ⟨contents₁, hafter, rfl⟩
    have hleave := h.represents.leave hafter.changesOnly hafter.mirrors.represents
    exact related_of_yields rfl rfl ⟨contents₁, ⟨⟨hleave, hafter.mirrors.output_eq⟩,
      hafter.contents_eq, hafter.changesOnly.pop.mono fun _ _ ↦ trivial⟩, rfl⟩
  · obtain ⟨hset, hvacant⟩ := h.setBindings hown htake
    exact related_of_yields rfl rfl (sameValue_adopt hset hvacant hown)

/-! ## Evaluation -/

theorem Simulates.applyFunction (hsim : Simulates e e') {function : Function} {args : List Value}
    (hchain : m.store.HasChain scope ids)
    (h : Mirrors place contents
      (fun p ↦ function.toValue.links p + linksAll p args + held p) m μ) :
    Related (SameValue place contents held m)
      ((function.unlink contents).apply library e scope (args.map (unlink contents)) m)
      (applyFunction library e' (place scope) function args μ) := by
  cases function with
  | primitive operation =>
    exact hsim.callPrimitive hchain (h.mono fun p ↦ Nat.add_le_add_right (Nat.le_add_left _ _) _)
  | closure closure =>
    obtain ⟨own, hown⟩ := h.exists_own
    have happly := hsim.applyClosure hown hchain h
    rw [Function.unlink, hown]
    exact happly

theorem Simulates.applyForm (hsim : Simulates e e') {values : List Value}
    (hchain : m.store.HasChain scope ids)
    (h : Mirrors place contents (fun p ↦ linksAll p values + held p) m μ) :
    Related (SameValue place contents held m)
      (QuoteLisp.applyForm library e scope (values.map (unlink contents)) m)
      (applyForm library e' (place scope) values μ) := by
  have hplain {v : Value} (hlinks : ∀ p, v.links p = 0) (hunlink : v.unlink contents = v) :
      SameValue place contents held m v m v μ :=
    sameValue_of_links_eq_zero hlinks hunlink (h.mono fun p ↦ Nat.le_add_left _ _)
  have happly (function : Function) (args : List Value)
      (hvalues : values = function.toValue :: args) :
      Related (SameValue place contents held m)
        ((function.unlink contents).apply library e scope (args.map (unlink contents)) m)
        (Memory.applyFunction library e' (place scope) function args μ) := by
    have hparts : Mirrors place contents
        (fun p ↦ function.toValue.links p + linksAll p args + held p) m μ :=
      h.mono fun p ↦ by rw [hvalues, linksAll_cons]
    exact hsim.applyFunction hchain hparts
  simp only [QuoteLisp.applyForm, find?_isError_unlink, Memory.applyForm]
  cases hfind : values.find? Value.isError with
  | some failure =>
    have hmem := List.mem_of_find?_eq_some hfind
    exact related_pure (sameValue_refl
      (h.mono fun p ↦ Nat.add_le_add_right (links_le_linksAll hmem) _))
  | none =>
    rcases values with _ | ⟨operator, _ | ⟨arg, args⟩⟩
    · exact related_pure (hplain (fun _ ↦ rfl) rfl)
    · exact related_pure (sameValue_refl
        (h.mono fun p ↦ by rw [linksAll_cons, linksAll_nil, Nat.add_zero]))
    · cases operator with
      | primitive operation => exact happly (.primitive operation) (arg :: args) rfl
      | closure formals body link =>
        have hclosure := happly (.closure ⟨formals, body, link⟩) (arg :: args) rfl
        simp only [Option.map_none, List.map_cons, unlink_closure]
        exact hclosure
      | _ => exact related_pure (hplain (fun _ ↦ rfl) rfl)

theorem Simulates.evalStep (hsim : Simulates e e') :
    Simulates (QuoteLisp.evalStep library e) (evalStep library e') := by
  intro place contents held m μ scope ids w hchain h
  cases w with
  | symbol name =>
    have hplain := h.represents.lookup?_eq hchain name
    have hdropped : Mirrors place contents held m μ := h.mono fun p ↦ Nat.le_add_left _ _
    cases hlookup : μ.store.lookup? (place scope) name with
    | none =>
      rw [hlookup, Option.map_none] at hplain
      refine related_of_yields (a := (EvalError.unboundSymbol name).toValue)
        (b := (EvalError.unboundSymbol name).toValue) (yields_get_bind_iff.mpr ?_)
        (yields_get_bind_iff.mpr ?_) (sameValue_of_links_eq_zero (fun _ ↦ rfl) rfl hdropped)
      · rw [hplain]
        exact yields_pure_iff.mpr ⟨rfl, rfl⟩
      · rw [hlookup]
        exact yields_pure_iff.mpr ⟨rfl, rfl⟩
    | some v =>
      rw [hlookup, Option.map_some] at hplain
      obtain ⟨v', contents', μ', hcopy, hcopied, hunlink⟩ :=
        exists_copy hdropped.represents (links_le_of_lookup? hlookup)
      refine related_of_yields (a := v.unlink contents) (yields_get_bind_iff.mpr ?_)
        (yields_get_bind_iff.mpr ?_) ⟨contents',
          ⟨⟨hcopied.represents, hcopied.output_eq.trans h.output_eq⟩, fun id hid ↦
            hcopied.extends_memory.contents_eq id
              (hdropped.represents.houses.lt_nextId (Nat.add_pos_right _ hid)), .refl _ _⟩,
          hunlink⟩
      · rw [hplain]
        exact yields_pure_iff.mpr ⟨rfl, rfl⟩
      · rw [hlookup]
        exact hcopy
  | sexpr cells =>
    rw [unlink_sexpr]
    refine (Simulates.mapM hsim hchain (h.mono fun p ↦ by rw [links_sexpr])).bind ?_
    rintro as m₁ bs μ₁ ⟨contents₁, hafter, rfl⟩
    refine Related.mono (Simulates.applyForm hsim (hafter.changesOnly.hasChain hchain)
      hafter.mirrors) ?_
    rintro a m₂ b μ₂ ⟨contents₂, hafter₂, hb⟩
    exact ⟨contents₂, hafter.next hafter₂, hb⟩
  | number _ | error _ | string _ | qexpr _ | primitive _ | closure _ _ _ | exit =>
    exact related_pure (sameValue_refl h)

/-- **Evaluation in memory does the same.** -/
theorem simulates_eval (library : Library) (fuel : Nat) :
    Simulates (QuoteLisp.eval library fuel) (eval library fuel) := by
  induction fuel with
  | zero =>
    intro place contents held m μ scope ids w _ _
    exact rfl
  | succ fuel ih => exact ih.evalStep

end Memory

end QuoteLisp
