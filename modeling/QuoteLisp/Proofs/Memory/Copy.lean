import QuoteLisp.Proofs.Evaluation.Rules
import QuoteLisp.Proofs.Memory.Request
import QuoteLisp.Proofs.Memory.Represents

/-!
# Copies in memory

The copy of a value has a new scope for every closure, with copies of everything that the old one
binds, so closures inside these are copied as well. This comes to an end: what a closure has bound
is a part of its plain form, so it is smaller (`sizeOf_contents_lt`), and scopes inside one another
are all different. There are no more of them than places in the store (`copiesScopes_copyScope`).

A copy has the plain form of the value that was copied, and nothing else has changed
(`exists_copy`).
-/

namespace QuoteLisp

open Run Store Value

namespace Memory

/-- A later state of the memory has more places, and the ones that were there hold what they
held. -/
structure Extends (contents : ScopeId → Bindings) (μ : Machine) (contents' : ScopeId → Bindings)
    (μ' : Machine) : Prop where
  nextId_le : μ.store.nextId ≤ μ'.store.nextId
  scope?_eq (id : ScopeId) : id < μ.store.nextId → μ'.store.scope? id = μ.store.scope? id
  contents_eq (id : ScopeId) : id < μ.store.nextId → contents' id = contents id

/-- Copies were made, and links to them are counted by `got`. Nothing else has changed. -/
structure Copied (place : ScopeId → ScopeId) (held : Option ScopeId → Nat) (plain : Store)
    (contents : ScopeId → Bindings) (μ : Machine) (got : Option ScopeId → Nat)
    (contents' : ScopeId → Bindings) (μ' : Machine) : Prop where
  represents : Represents place contents' (fun p ↦ got p + held p) plain μ'.store
  output_eq : μ'.output = μ.output
  extends_memory : Extends contents μ contents' μ'

variable {place : ScopeId → ScopeId} {contents contents₀ contents₁ contents₂ : ScopeId → Bindings}
  {held got got' : Option ScopeId → Nat} {plain : Store} {μ μ₀ μ₁ μ₂ : Machine}

theorem Extends.refl (contents : ScopeId → Bindings) (μ : Machine) :
    Extends contents μ contents μ :=
  ⟨Nat.le_refl _, fun _ _ ↦ rfl, fun _ _ ↦ rfl⟩

theorem Extends.trans (h : Extends contents μ contents₁ μ₁)
    (h' : Extends contents₁ μ₁ contents₂ μ₂) : Extends contents μ contents₂ μ₂ where
  nextId_le := h.nextId_le.trans h'.nextId_le
  scope?_eq id hid := (h'.scope?_eq id (hid.trans_le h.nextId_le)).trans (h.scope?_eq id hid)
  contents_eq id hid := (h'.contents_eq id (hid.trans_le h.nextId_le)).trans (h.contents_eq id hid)

theorem Extends.links_le (h : Extends contents μ contents₁ μ₁) (p : Option ScopeId) :
    μ.store.links p ≤ μ₁.store.links p := by
  rw [Store.links, Store.links]
  refine (Finset.sum_le_sum fun id hid ↦ ?_).trans
    (Finset.sum_le_sum_of_subset (Finset.range_subset_range.mpr h.nextId_le))
  rw [bindings_eq_of_scope? (h.scope?_eq id (Finset.mem_range.mp hid))]

theorem Copied.of_eq (h : Copied place held plain contents μ got contents₁ μ₁)
    (hgot : ∀ p, got' p = got p) : Copied place held plain contents μ got' contents₁ μ₁ := by
  rwa [funext hgot]

theorem Copied.trans (h : Copied place held plain contents μ got contents₁ μ₁)
    (h' : Copied place (fun p ↦ got p + held p) plain contents₁ μ₁ got' contents₂ μ₂) :
    Copied place held plain contents μ (fun p ↦ got p + got' p) contents₂ μ₂ where
  represents := h'.represents.mono fun p ↦ by omega
  output_eq := h'.output_eq.trans h.output_eq
  extends_memory := h.extends_memory.trans h'.extends_memory

/-- Plain values are what they were, as far as they are linked to places that were there. -/
theorem Extends.unlink_eq (h : Extends contents μ contents₁ μ₁) {v : Value}
    (hv : ∀ id, 0 < v.links (some id) → id < μ.store.nextId) :
    v.unlink contents₁ = v.unlink contents :=
  unlink_congr v fun id hid ↦ h.contents_eq id (hv id hid)

theorem Extends.map_unlink_eq (h : Extends contents μ contents₁ μ₁) {vs : List Value}
    (hvs : ∀ id, 0 < linksAll (some id) vs → id < μ.store.nextId) :
    vs.map (unlink contents₁) = vs.map (unlink contents) :=
  map_unlink_congr vs fun id hid ↦ h.contents_eq id (hvs id hid)

/-- A run copies any of the given scopes, in a state later than a first one. -/
def CopiesScopes (place : ScopeId → ScopeId) (plain : Store) (contents₀ : ScopeId → Bindings)
    (μ₀ : Machine) (Good : ScopeId → Prop) (run : ScopeId → Run ScopeId) : Prop :=
  ∀ own, Good own → ∀ contents held μ, Extends contents₀ μ₀ contents μ →
    Represents place contents held plain μ.store →
      ∃ own' contents' μ', Yields (run own) μ own' μ' ∧
        Copied place held plain contents μ (fun p ↦ if some own' = p then 1 else 0) contents' μ' ∧
        contents' own' = contents own

variable {Good : ScopeId → Prop} {run : ScopeId → Run ScopeId}

mutual

theorem CopiesScopes.exists_copyWith {contents : ScopeId → Bindings}
    {held : Option ScopeId → Nat} {μ : Machine}
    (hrun : CopiesScopes place plain contents₀ μ₀ Good run)
    (hgood : ∀ id, Good id → id < μ₀.store.nextId) (hext : Extends contents₀ μ₀ contents μ)
    (h : Represents place contents held plain μ.store) :
    ∀ v : Value, (∀ id, 0 < v.links (some id) → Good id) → v.links none = 0 →
      ∃ v' contents' μ', Yields (copyWith run v) μ v' μ' ∧
        Copied place held plain contents μ v'.links contents' μ' ∧
        v'.unlink contents' = v.unlink contents
  | .sexpr cells, hlinks, hnone => by
    simp only [links_sexpr] at hlinks hnone
    obtain ⟨cells', contents', μ', hcells, hcopied, hunlink⟩ :=
      hrun.exists_copyAllWith hgood hext h cells hlinks hnone
    refine ⟨sexpr cells', contents', μ', ?_, hcopied.of_eq fun p ↦ links_sexpr cells', ?_⟩
    · rw [copyWith]
      exact yields_bind_iff.mpr ⟨cells', μ', hcells, yields_pure_iff.mpr ⟨rfl, rfl⟩⟩
    · rw [unlink_sexpr, unlink_sexpr, hunlink]
  | .qexpr cells, hlinks, hnone => by
    simp only [links_qexpr] at hlinks hnone
    obtain ⟨cells', contents', μ', hcells, hcopied, hunlink⟩ :=
      hrun.exists_copyAllWith hgood hext h cells hlinks hnone
    refine ⟨qexpr cells', contents', μ', ?_, hcopied.of_eq fun p ↦ links_qexpr cells', ?_⟩
    · rw [copyWith]
      exact yields_bind_iff.mpr ⟨cells', μ', hcells, yields_pure_iff.mpr ⟨rfl, rfl⟩⟩
    · rw [unlink_qexpr, unlink_qexpr, hunlink]
  | .closure formals body link, hlinks, hnone => by
    simp only [links_closure] at hlinks hnone
    cases hlink : linked? link with
    | none =>
      rw [if_pos hlink] at hnone
      omega
    | some own =>
      have hown := hlinks own (by rw [if_pos hlink]; omega)
      -- the body is copied first and then the scope
      obtain ⟨body', contents₁, μ₁, hbody, hcopied, hunlink⟩ :=
        hrun.exists_copyAllWith hgood hext h body (fun id hid ↦ hlinks id (by omega)) (by omega)
      obtain ⟨own', contents₂, μ₂, hscope, hcopied', hcontents⟩ := hrun own hown contents₁ _ μ₁
        (hext.trans hcopied.extends_memory) hcopied.represents
      refine ⟨.closure formals body' (linkTo own'), contents₂, μ₂, ?_,
        (hcopied.trans hcopied').of_eq fun p ↦ ?_, ?_⟩
      · rw [copyWith]
        refine yields_bind_iff.mpr ⟨body', μ₁, hbody, ?_⟩
        rw [hlink]
        exact yields_bind_iff.mpr ⟨own', μ₂, hscope, yields_pure_iff.mpr ⟨rfl, rfl⟩⟩
      · rw [links_closure, linked?_linkTo, Nat.add_comm]
      · have hold : body'.map (unlink contents₂) = body'.map (unlink contents₁) :=
          hcopied'.extends_memory.map_unlink_eq fun id hid ↦
            hcopied.represents.houses.lt_nextId (by omega)
        have hsame := hcopied.extends_memory.contents_eq own
          ((hgood own hown).trans_le hext.nextId_le)
        rw [unlink_closure, unlink_closure, hold, hunlink, hlink, linked?_linkTo, Option.elim_some,
          Option.elim_some, hcontents, hsame]
  | .number _, _, _ | .error _, _, _ | .symbol _, _, _ | .string _, _, _ | .primitive _, _, _
  | .exit, _, _ =>
    ⟨_, contents, μ, yields_pure_iff.mpr ⟨rfl, rfl⟩,
      ⟨h.mono fun p ↦ (Nat.zero_add _).le, rfl, .refl _ _⟩, rfl⟩

theorem CopiesScopes.exists_copyAllWith {contents : ScopeId → Bindings}
    {held : Option ScopeId → Nat} {μ : Machine}
    (hrun : CopiesScopes place plain contents₀ μ₀ Good run)
    (hgood : ∀ id, Good id → id < μ₀.store.nextId) (hext : Extends contents₀ μ₀ contents μ)
    (h : Represents place contents held plain μ.store) :
    ∀ vs : List Value, (∀ id, 0 < linksAll (some id) vs → Good id) → linksAll none vs = 0 →
      ∃ vs' contents' μ', Yields (copyAllWith run vs) μ vs' μ' ∧
        Copied place held plain contents μ (linksAll · vs') contents' μ' ∧
        vs'.map (unlink contents') = vs.map (unlink contents)
  | [], _, _ =>
    ⟨[], contents, μ, yields_pure_iff.mpr ⟨rfl, rfl⟩,
      ⟨h.mono fun p ↦ (Nat.zero_add _).le, rfl, .refl _ _⟩, rfl⟩
  | v :: vs, hlinks, hnone => by
    simp only [linksAll_cons] at hlinks hnone
    obtain ⟨v', contents₁, μ₁, hv, hcopied, hunlink⟩ :=
      hrun.exists_copyWith hgood hext h v (fun id hid ↦ hlinks id (by omega)) (by omega)
    have hext₁ := hext.trans hcopied.extends_memory
    obtain ⟨vs', contents₂, μ₂, hvs, hcopied', hunlink'⟩ :=
      hrun.exists_copyAllWith hgood hext₁ hcopied.represents vs
        (fun id hid ↦ hlinks id (by omega)) (by omega)
    have hfirst : v'.unlink contents₂ = v'.unlink contents₁ :=
      hcopied'.extends_memory.unlink_eq fun id hid ↦
        hcopied.represents.houses.lt_nextId (by omega)
    have hothers : vs.map (unlink contents₁) = vs.map (unlink contents) :=
      hcopied.extends_memory.map_unlink_eq fun id hid ↦
        (hgood id (hlinks id (by omega))).trans_le hext.nextId_le
    refine ⟨v' :: vs', contents₂, μ₂, ?_,
      (hcopied.trans hcopied').of_eq fun p ↦ linksAll_cons v' vs', ?_⟩
    · rw [copyAllWith]
      exact yields_bind_iff.mpr ⟨v', μ₁, hv, yields_bind_iff.mpr
        ⟨vs', μ₂, hvs, yields_pure_iff.mpr ⟨rfl, rfl⟩⟩⟩
    · rw [List.map_cons, List.map_cons, hfirst, hunlink, hunlink', hothers]

end

/-! ## No scope is inside itself -/

mutual

/-- What a closure in a value has bound is a part of the plain value. -/
theorem sizeOf_contents_lt {id : ScopeId} : ∀ v : Value, 0 < v.links (some id) →
    sizeOf (contents id) < sizeOf (v.unlink contents)
  | .sexpr cells, h => by
    rw [links_sexpr] at h
    have := sizeOf_contents_lt_all cells h
    simp only [unlink_sexpr, Value.sexpr.sizeOf_spec]
    omega
  | .qexpr cells, h => by
    rw [links_qexpr] at h
    have := sizeOf_contents_lt_all cells h
    simp only [unlink_qexpr, Value.qexpr.sizeOf_spec]
    omega
  | .closure formals body link, h => by
    rw [links_closure] at h
    rw [unlink_closure, Value.closure.sizeOf_spec]
    by_cases hlink : linked? link = some id
    · rw [hlink, Option.elim_some]
      omega
    · rw [if_neg hlink, Nat.zero_add] at h
      have := sizeOf_contents_lt_all body h
      omega
  | .number _, h | .error _, h | .symbol _, h | .string _, h | .primitive _, h | .exit, h =>
    nomatch h

theorem sizeOf_contents_lt_all {id : ScopeId} : ∀ vs : List Value, 0 < linksAll (some id) vs →
    sizeOf (contents id) < sizeOf (vs.map (unlink contents))
  | v :: vs, h => by
    rw [linksAll_cons] at h
    rw [List.map_cons, List.cons.sizeOf_spec]
    rcases Nat.add_pos_iff_pos_or_pos.mp h with h | h
    · have := sizeOf_contents_lt v h
      omega
    · have := sizeOf_contents_lt_all vs h
      omega

end

theorem sizeOf_contents_lt_bindings {id : ScopeId} {bindings : Bindings}
    (h : 0 < bindings.links (some id)) :
    sizeOf (contents id) < sizeOf (bindings.unlink contents) := by
  induction bindings with
  | nil => nomatch h
  | cons entry rest ih =>
    obtain ⟨name, v⟩ := entry
    simp only [Bindings.unlink, List.map_cons, List.cons.sizeOf_spec, Prod.mk.sizeOf_spec]
    rcases Nat.add_pos_iff_pos_or_pos.mp h with h | h
    · have hless : sizeOf (contents id) < sizeOf (v.unlink contents) := sizeOf_contents_lt v h
      omega
    · have := ih h
      simp only [Bindings.unlink] at this
      omega

/-- Copies of what a scope binds are bound in a new one, and a closure that is linked to that holds
what it would hold with a link to the first. -/
theorem Copied.exists_adopt {bindings : Bindings} {values : List Value}
    (h : Copied place held plain contents μ (linksAll · values) contents₁ μ₁)
    (hvalues : values.map (unlink contents₁) = (bindings.map Prod.snd).map (unlink contents)) :
    ∃ contents', Copied place held plain contents μ
        (fun p ↦ if some μ₁.store.nextId = p then 1 else 0) contents'
        { μ₁ with store := μ₁.store.push ⟨(bindings.map Prod.fst).zip values, none⟩ } ∧
      contents' μ₁.store.nextId = bindings.unlink contents := by
  have hlength : (bindings.map Prod.fst).length = values.length := by
    have hsame := congrArg List.length hvalues
    simpa using hsame.symm
  have hentries : Bindings.unlink contents₁ ((bindings.map Prod.fst).zip values)
      = bindings.unlink contents := by
    rw [Bindings.unlink_zip, hvalues, ← Bindings.unlink_eq_zip]
  have hbound : Represents place contents₁ (fun p ↦
      Bindings.links p ((bindings.map Prod.fst).zip values) + held p) plain μ₁.store :=
    h.represents.mono fun p ↦ (congrArg (· + held p) (Bindings.links_zip hlength)).le
  obtain ⟨hpush, hvacant⟩ := hbound.push
  refine ⟨_, ⟨hpush.adopt hvacant, h.output_eq, h.extends_memory.trans ?_⟩, ?_⟩
  · refine ⟨?_, fun id hid ↦ ?_, fun id hid ↦ Function.update_of_ne (Nat.ne_of_lt hid) _ _⟩
    · rw [nextId_push]
      exact Nat.le_succ _
    · rw [scope?_push, if_neg (Nat.ne_of_lt hid)]
  · rw [Function.update_self, hentries]

theorem yields_newScope (scope : Scope) (μ : Machine) :
    Yields (newScope scope) μ μ.store.nextId { μ with store := μ.store.push scope } := rfl

/-- A scope that a bound closure is linked to is copied, if the bound on the depth makes up for the
places that are left: a scope further in holds less than those it is inside of, so it is another
one. -/
theorem copiesScopes_copyScope (h₀ : Represents place contents₀ held plain μ₀.store) (depth : Nat)
    (around : List ScopeId) (hnodup : around.Nodup)
    (haround : ∀ other ∈ around, other < μ₀.store.nextId)
    (hdepth : μ₀.store.nextId ≤ around.length + depth) :
    CopiesScopes place plain contents₀ μ₀
      (fun own ↦ 0 < μ₀.store.links (some own) ∧
        ∀ other ∈ around, sizeOf (contents₀ own) < sizeOf (contents₀ other))
      (copyScope depth) := by
  induction depth generalizing around with
  | zero =>
    rintro own ⟨hown, hless⟩
    have hlt := h₀.houses.lt_nextId (Nat.add_pos_left hown _)
    have hnodup' : (own :: around).Nodup :=
      List.nodup_cons.mpr ⟨fun hmem ↦ Nat.lt_irrefl _ (hless own hmem), hnodup⟩
    have hall : ∀ other ∈ own :: around, other < μ₀.store.nextId :=
      List.forall_mem_cons.mpr ⟨hlt, haround⟩
    have hsubset : own :: around ⊆ List.range μ₀.store.nextId := fun other hother ↦
      List.mem_range.mpr (hall other hother)
    have hle := hnodup'.length_le_of_subset hsubset
    rw [List.length_range, List.length_cons] at hle
    exact absurd (hle.trans hdepth) (Nat.not_succ_le_self _)
  | succ depth ih =>
    rintro own ⟨hown, hless⟩ contents held μ hext h
    have hlt := h₀.houses.lt_nextId (Nat.add_pos_left hown _)
    have hlinked := Nat.add_pos_left (hown.trans_le (hext.links_le _)) (held (some own))
    obtain ⟨bindings, hscope⟩ := h.houses.parentless own hlinked
    have hbindings : μ.store.bindings own = bindings := bindings_eq_of_scope?_eq_some hscope
    have hbindings₀ : μ₀.store.bindings own = bindings :=
      (bindings_eq_of_scope? (hext.scope?_eq own hlt)).symm.trans hbindings
    have hcontents₀ := h₀.contents_eq own (Nat.add_pos_left hown _)
    have hcontents := h.contents_eq own hlinked
    rw [hbindings₀] at hcontents₀
    rw [hbindings] at hcontents
    have hlinks := hbindings₀ ▸ μ₀.store.links_bindings_le own
    have hinside := ih (own :: around)
      (List.nodup_cons.mpr ⟨fun hmem ↦ Nat.lt_irrefl _ (hless own hmem), hnodup⟩)
      (List.forall_mem_cons.mpr ⟨hlt, haround⟩)
      (hdepth.trans_eq (by rw [List.length_cons, Nat.add_right_comm, Nat.add_assoc]))
    have hgood (id : ScopeId) (hid : 0 < bindings.links (some id)) :
        0 < μ₀.store.links (some id) ∧
          ∀ other ∈ own :: around, sizeOf (contents₀ id) < sizeOf (contents₀ other) := by
      have hless' : sizeOf (contents₀ id) < sizeOf (contents₀ own) :=
        hcontents₀ ▸ sizeOf_contents_lt_bindings hid
      exact ⟨hid.trans_le (hlinks _), List.forall_mem_cons.mpr
        ⟨hless', fun other hother ↦ hless'.trans (hless other hother)⟩⟩
    have hnone : bindings.links none = 0 := by
      have := h₀.houses.linked
      have := hlinks none
      omega
    obtain ⟨values, contents₁, μ₁, hvalues, hcopied, hunlink⟩ := hinside.exists_copyAllWith
      (fun id hid ↦ h₀.houses.lt_nextId (Nat.add_pos_left hid.1 _)) hext h
      (bindings.map Prod.snd) hgood hnone
    obtain ⟨contents', hcopied', hadopted⟩ := hcopied.exists_adopt hunlink
    refine ⟨_, contents', _, ?_, hcopied', hadopted.trans hcontents.symm⟩
    rw [copyScope]
    refine yields_get_bind_iff.mpr ?_
    dsimp only
    rw [hbindings, hscope]
    exact yields_bind_iff.mpr ⟨values, μ₁, hvalues, yields_newScope _ _⟩

/-- A value that is bound is copied, and its plain form is that of the copy. -/
theorem exists_copy {v : Value} (h : Represents place contents held plain μ.store)
    (hv : ∀ p, v.links p ≤ μ.store.links p) :
    ∃ v' contents' μ', Yields (copy v) μ v' μ' ∧
      Copied place held plain contents μ v'.links contents' μ' ∧
      v'.unlink contents' = v.unlink contents := by
  have hcopies := copiesScopes_copyScope h μ.store.nextId [] List.nodup_nil (List.forall_mem_nil _)
    (Nat.zero_add _).ge
  have hnone : v.links none = 0 := by
    have := h.houses.linked
    have := hv none
    omega
  exact hcopies.exists_copyWith (fun id hid ↦ h.houses.lt_nextId (Nat.add_pos_left hid.1 _))
    (.refl _ _) h v (fun id hid ↦ ⟨hid.trans_le (hv _), List.forall_mem_nil _⟩) hnone

end Memory

end QuoteLisp
