import QuoteLisp.Proofs.Evaluation.Definitions
import QuoteLisp.Proofs.Evaluation.Lambda
import QuoteLisp.Proofs.Memory.Activation
import QuoteLisp.Proofs.Scope.Writes

/-!
# The chain of the scope that a program runs in

Evaluation links scopes in one way only: a frame is put around by the scope its closure is applied
in. So however deep the calls go, the chain of the scope that a program runs in consists of the
frames of the closures that are running, the innermost first, and of the chain that was there at the
start (`Stack.of_reaches`). Every lookup ends, and every `def` binds in the root of that chain.

The store has no scopes besides: what it has gained since the start are the frames, and when an
activity has ended its frames have gone. A closure that is not running has no scope in the store.
The names that it has bound are in its value.

In memory these names are in a scope, which becomes the frame when the closure runs. Evaluation in
memory does the same, so the chain is there what it is here. The scopes of the closures that are not
running have no parents, and they are not on the chain (`frames_append_chain`).
-/

namespace QuoteLisp

open Store

variable {library : Library}

namespace Activation

/-- What a direct step does to the scope and the frames. It stays in its scope, after what was done
there before, or it enters a new frame. -/
theorem Calls.stays_or_enters {act act' : Activation} (h : act.Calls library act') :
    (act'.scope = act.scope ∧ act'.frames = act.frames ∧
        act.machine.store.ChangesFrom act.scope act'.machine.store) ∨
      ∃ bound, act'.scope = act.machine.store.nextId ∧
        act'.frames = act.machine.store.nextId :: act.frames ∧
        act'.machine = act.machine.enter bound act.scope := by
  cases h with
  | cell hbefore => exact Or.inl ⟨rfl, rfl, hbefore.changesFrom⟩
  | apply hcells => exact Or.inl ⟨rfl, rfl, hcells.changesFrom⟩
  | form _ _ hbefore => exact Or.inl ⟨rfl, rfl, hbefore.changesFrom⟩
  | primitive | evaluate | load => exact Or.inl ⟨rfl, rfl, .refl _ _⟩
  | @body scope closure args bound => exact Or.inr ⟨bound, rfl, rfl, rfl⟩

/-- How an activation stands to one that began without frames in a scope with the chain `ids`: the
chain has the frames in front, and they are all that the store has gained. -/
structure Stack (start : Activation) (ids : List ScopeId) (act : Activation) : Prop where
  hasChain : act.machine.store.HasChain act.scope (act.frames ++ ids)
  nextId_le : start.machine.store.nextId ≤ act.machine.store.nextId
  mem_frames_iff (id : ScopeId) :
    id ∈ act.frames ↔ start.machine.store.nextId ≤ id ∧ id < act.machine.store.nextId
  parent_eq (id : ScopeId) : id < start.machine.store.nextId →
    (act.machine.store.scope? id).map Scope.parent
      = (start.machine.store.scope? id).map Scope.parent

variable {start act act' : Activation} {ids : List ScopeId}

theorem Stack.refl (hchain : start.machine.store.HasChain start.scope ids)
    (hframes : start.frames = []) : start.Stack ids start where
  hasChain := by rwa [hframes]
  nextId_le := Nat.le_refl _
  mem_frames_iff id := by
    rw [hframes]
    exact iff_of_false List.not_mem_nil fun h ↦ Nat.not_lt_of_le h.1 h.2
  parent_eq _ _ := rfl

theorem Stack.of_calls (h : start.Stack ids act) (hcalls : act.Calls library act') :
    start.Stack ids act' := by
  rcases hcalls.stays_or_enters with ⟨hscope, hframes, hchanges⟩ | ⟨bound, hscope, hframes, hm⟩
  · -- only bindings have changed
    have hchanges := hchanges _ h.hasChain
    refine ⟨?_, ?_, fun id ↦ ?_, fun id hid ↦ ?_⟩
    · rw [hscope, hframes]
      exact hchanges.hasChain h.hasChain
    · rw [hchanges.nextId_eq]
      exact h.nextId_le
    · rw [hframes, hchanges.nextId_eq]
      exact h.mem_frames_iff id
    · rw [hchanges.parent_eq]
      exact h.parent_eq id hid
  · -- the new frame is at the next place, so it is one of the places gained
    have hnextId : (act.machine.enter bound act.scope).store.nextId
        = act.machine.store.nextId + 1 := Array.size_push _
    refine ⟨?_, ?_, fun id ↦ ?_, fun id hid ↦ ?_⟩
    · rw [hscope, hframes, hm]
      exact h.hasChain.push_nextId bound
    · rw [hm, hnextId]
      exact Nat.le_succ_of_le h.nextId_le
    · have hgain (n k x : Nat) (hle : n ≤ k) :
          x = k ∨ n ≤ x ∧ x < k ↔ n ≤ x ∧ x < k + 1 := by omega
      rw [hframes, hm, hnextId, List.mem_cons, h.mem_frames_iff]
      exact hgain _ _ id h.nextId_le
    · have hne : id ≠ act.machine.store.nextId :=
        Nat.ne_of_lt (Nat.lt_of_lt_of_le hid h.nextId_le)
      rw [← h.parent_eq id hid, hm, Machine.enter, scope?_push, if_neg hne]

/-- However deep the calls go, the frames are in front of the chain of the start. -/
theorem Stack.of_reaches (hchain : start.machine.store.HasChain start.scope ids)
    (hframes : start.frames = []) (h : start.Reaches library act) : start.Stack ids act := by
  induction h with
  | refl => exact .refl hchain hframes
  | tail _ hcalls ih => exact ih.of_calls hcalls

/-- The root is the one of the start. -/
theorem Stack.root_eq (h : start.Stack ids act)
    (hchain : start.machine.store.HasChain start.scope ids) :
    act.machine.store.root act.scope = start.machine.store.root start.scope := by
  have hlast := h.hasChain.getLast?_eq
  rw [List.getLast?_append, hchain.getLast?_eq, Option.some_or] at hlast
  exact (Option.some.inj hlast).symm

/-- A scope besides the frames is one of those at the start, with the link it had. -/
theorem Stack.scope?_of_not_mem_frames (h : start.Stack ids act) {id : ScopeId}
    (hid : (act.machine.store.scope? id).isSome) (hframe : id ∉ act.frames) :
    (start.machine.store.scope? id).isSome ∧
      (act.machine.store.scope? id).map Scope.parent
        = (start.machine.store.scope? id).map Scope.parent := by
  have hlt : id < start.machine.store.nextId := by
    refine Nat.lt_of_not_le fun hle ↦ hframe ?_
    exact (h.mem_frames_iff id).mpr ⟨hle, lt_nextId_of_isSome hid⟩
  have hparent := h.parent_eq id hlt
  refine ⟨?_, hparent⟩
  rwa [← Option.isSome_map (f := Scope.parent), ← hparent, Option.isSome_map]

/-! ## Definitions at any depth -/

/-- A definition that is reached binds its names in the root of the start, the last value of a name
counting, and touches no other scope. -/
theorem Stack.exists_defined (h : start.Stack ids act)
    (hchain : start.machine.store.HasChain start.scope ids) {names : List String}
    {values : List Value} (hlength : names.length = values.length)
    (hcall : act.activity = .call (.define .globally) (.qexpr (names.map .symbol) :: values)) :
    ∃ m', act.Ends library .unit m' ∧
      (∀ id, id ≠ start.machine.store.root start.scope →
        m'.store.scope? id = act.machine.store.scope? id) ∧
      ∀ name, m'.store.lookup? (start.machine.store.root start.scope) name
        = ((names.zip values).reverse.lookup name).or
            (act.machine.store.lookup? (start.machine.store.root start.scope) name) := by
  have hact := h.hasChain
  have hchanges := act.machine.store.changesOnly_bindAll .globally act.scope (names.zip values)
  have hdefines := defines_bindAll (hact.live.isSome_scope?_target .globally) names values
  have hbefore := hact.live.lookup?_root
  have hafter := (hchanges.hasChain hact).live.lookup?_root
  rw [hchanges.root_eq] at hafter
  rw [Store.target] at hdefines
  rw [h.root_eq hchain] at hdefines hbefore hafter
  refine ⟨⟨act.machine.store.bindAll .globally act.scope (names.zip values), act.machine.output⟩,
    ⟨0, ?_⟩, hdefines.scope?_eq, fun name ↦ ?_⟩
  · rw [hcall]
    exact yields_call_define hlength .globally library _ act.scope act.machine
  · rw [hafter, hbefore, hdefines.find?_eq]

/-! ## The same in memory -/

section

variable {place : ScopeId → ScopeId} {contents : ScopeId → Bindings}
  {linked linked' : Memory.Activation}

open Memory.Activation (StandsFor DoesAs)

/-- The scopes that were there at the start keep their places, so the chain in memory has the places
of the frames in front. -/
theorem Stack.doesAs_and_apart (h : start.Stack ids act)
    (hchain : start.machine.store.HasChain start.scope ids) {place' : ScopeId → ScopeId}
    (hstands : StandsFor place' contents linked act)
    (hplace : ∀ id < start.machine.store.nextId, place' id = place id) (library : Library) :
    DoesAs library place' contents linked act ∧
      linked.Apart library (linked.frames ++ ids.map place) := by
  have hdoes := hstands.doesAs h.hasChain library
  have hids : ids.map place' = ids.map place :=
    List.map_congr_left fun id hid ↦ hplace id (hchain.lt_nextId_of_mem hid)
  have hapart := hdoes.apart h.hasChain
  rw [List.map_append, ← hstands.frames_eq, hids] at hapart
  exact ⟨hdoes, hapart⟩

variable (hchain : start.machine.store.HasChain start.scope ids) (hframes : start.frames = [])
  (hstart : StandsFor place contents linked start)
include hchain hframes hstart

/-- What is reached from the start is reached in memory. -/
theorem Reaches.exists_standsFor (h : start.Reaches library act) :
    ∃ linked', linked.Reaches library linked' ∧ ∃ place' contents',
      StandsFor place' contents' linked' act ∧
        ∀ id < start.machine.store.nextId, place' id = place id := by
  induction h with
  | refl => exact ⟨linked, .refl, place, contents, hstart, fun _ _ ↦ rfl⟩
  | tail hreaches hcalls ih =>
    obtain ⟨linked', hreaches', place', contents', hstands, hplace⟩ := ih
    have hstack := Stack.of_reaches hchain hframes hreaches
    obtain ⟨linked'', hcalls', place'', contents'', hstands', hplace'⟩ :=
      hstands.exists_calls hstack.hasChain hcalls
    exact ⟨linked'', hreaches'.tail hcalls', place'', contents'', hstands', fun id hid ↦
      (hplace' id (Nat.lt_of_lt_of_le hid hstack.nextId_le)).trans (hplace id hid)⟩

/-- What is reached in memory stands for something that is reached from the start. -/
theorem exists_reaches_of_standsFor (h : linked.Reaches library linked') :
    ∃ act, start.Reaches library act ∧ ∃ place' contents',
      StandsFor place' contents' linked' act ∧
        ∀ id < start.machine.store.nextId, place' id = place id := by
  induction h with
  | refl => exact ⟨start, .refl, place, contents, hstart, fun _ _ ↦ rfl⟩
  | tail _ hcalls ih =>
    obtain ⟨act, hreaches, place', contents', hstands, hplace⟩ := ih
    have hstack := Stack.of_reaches hchain hframes hreaches
    obtain ⟨act', hcalls', place'', contents'', hstands', hplace'⟩ :=
      hstands.exists_calls_of_calls hstack.hasChain hcalls
    exact ⟨act', hreaches.tail hcalls', place'', contents'', hstands', fun id hid ↦
      (hplace' id (Nat.lt_of_lt_of_le hid hstack.nextId_le)).trans (hplace id hid)⟩

end

/-- **Frames are in front of the chain.** Let the chain of a scope end. Whatever comes about on the
way of an activity in that scope, the chain of the scope it happens in consists of the frames of the
running closures, the innermost first, and of the chain at the start. It meets no scope twice.
Every lookup and every walk to the root sees the end of it, so more links would make no difference.
Whatever the depth, `def` binds its names in the root of the start, where they can be looked up
then, and in no other scope. The store has the scopes of the start, with the links they had, and the
frames. At the end of each activity, whatever its result, the scopes and their links are again those
of its beginning.

In memory closures have scopes of their own. Let an activation in memory have the start as its plain
form, and let every closure in it have a scope without a parent that no other closure has and that
is not on the chain. Then whatever comes about on the way in memory does as something that comes
about on the way of the start, and the other way round. Each time the chain in memory consists of
the frames and of the chain at the start, every closure that is bound, worked with or waiting has a
scope without a parent to itself, and none of these scopes is on the chain. The same holds with the
result when it ends. -/
theorem frames_append_chain (hchain : start.machine.store.HasChain start.scope ids)
    (hframes : start.frames = []) :
    (∀ act, start.Reaches library act →
      act.machine.store.HasChain act.scope (act.frames ++ ids) ∧
      act.machine.store.chain act.scope = act.frames ++ start.machine.store.chain start.scope ∧
      (act.frames ++ ids).Nodup ∧
      (∀ links, (act.frames ++ ids).length ≤ links + 1 →
        act.machine.store.rootWithin links act.scope = start.machine.store.root start.scope ∧
        ∀ name, act.machine.store.lookupWithin name links act.scope
          = act.machine.store.lookup? act.scope name) ∧
      (∀ (names : List String) (values : List Value), names.length = values.length →
        act.activity = .call (.define .globally) (.qexpr (names.map .symbol) :: values) →
        ∃ m', act.Ends library .unit m' ∧
          (∀ id, id ≠ start.machine.store.root start.scope →
            m'.store.scope? id = act.machine.store.scope? id) ∧
          ∀ name, m'.store.lookup? (start.machine.store.root start.scope) name
            = ((names.zip values).reverse.lookup name).or
                (act.machine.store.lookup? (start.machine.store.root start.scope) name)) ∧
      (∀ id, (act.machine.store.scope? id).isSome → id ∉ act.frames →
        (start.machine.store.scope? id).isSome ∧
          (act.machine.store.scope? id).map Scope.parent
            = (start.machine.store.scope? id).map Scope.parent) ∧
      ∀ a m', act.Ends library a m' → ∀ id,
        (m'.store.scope? id).map Scope.parent = (act.machine.store.scope? id).map Scope.parent) ∧
    ∀ (linked : Memory.Activation) (contents : ScopeId → Bindings),
      linked.Housed contents ids → linked.unlink contents = start →
      (∀ act, start.Reaches library act → ∃ linked', linked.Reaches library linked' ∧
        ∃ place contents', Memory.Activation.DoesAs library place contents' linked' act) ∧
      ∀ linked', linked.Reaches library linked' →
        linked'.Apart library (linked'.frames ++ ids) ∧
        ∃ act, start.Reaches library act ∧
          ∃ place contents', Memory.Activation.DoesAs library place contents' linked' act := by
  refine ⟨fun act h ↦ ?_, fun linked contents hhoused hplain ↦ ?_⟩
  · have hstack := Stack.of_reaches hchain hframes h
    have hact := hstack.hasChain
    refine ⟨hact, ?_, hact.nodup, fun links hlinks ↦ ⟨?_, hact.lookupWithin_eq hlinks⟩,
      fun names values hlength hcall ↦ hstack.exists_defined hchain hlength hcall,
      fun id ↦ hstack.scope?_of_not_mem_frames,
      fun a m' hends ↦ (hends.changesFrom _ hact).parent_eq⟩
    · rw [hact.chain_eq, hchain.chain_eq]
    · rw [hact.rootWithin_eq hlinks, hstack.root_eq hchain]
  · have hstart := hhoused.standsFor
    rw [hplain] at hstart
    refine ⟨fun act h ↦ ?_, fun linked' h ↦ ?_⟩
    · obtain ⟨linked', hreaches, place, contents', hstands, hplace⟩ :=
        h.exists_standsFor hchain hframes hstart
      have hstack := Stack.of_reaches hchain hframes h
      exact ⟨linked', hreaches, place, contents', hstands.doesAs hstack.hasChain library⟩
    · obtain ⟨act, hreaches, place, contents', hstands, hplace⟩ :=
        exists_reaches_of_standsFor hchain hframes hstart h
      have hstack := Stack.of_reaches hchain hframes hreaches
      obtain ⟨hdoes, hapart⟩ := hstack.doesAs_and_apart hchain hstands hplace library
      rw [List.map_id'] at hapart
      exact ⟨hapart, act, hreaches, place, contents', hdoes⟩

/-- In a fresh machine one closure is applied to another and applies it in turn, and that one makes
a definition. Two frames are in front of the global scope then, where the name can be looked up
afterwards. In memory the closure that the outer frame binds has a scope, and it is apart from
these. -/
theorem frames_append_chain_two_closures :
    ∃ (v : Value) (act : Activation) (linked : Memory.Activation) (m' : Machine) (own : ScopeId),
      Reaches ⟨fun _ ↦ none⟩ ⟨globalScope, .eval v, .start .empty, []⟩ act ∧
      act.activity = .call (.define .globally) [.qexpr [.symbol "y"], .number 1] ∧
      act.frames = [2, 1] ∧ act.machine.store.chain act.scope = [2, 1, globalScope] ∧
      act.Ends ⟨fun _ ↦ none⟩ .unit m' ∧
      m'.store.lookup? globalScope "y" = some (.number 1) ∧
      Memory.Activation.Reaches ⟨fun _ ↦ none⟩
        ⟨globalScope, .eval v, .start .empty, [], []⟩ linked ∧
      linked.Apart ⟨fun _ ↦ none⟩ (linked.frames ++ [globalScope]) ∧
      0 < linked.machine.store.links (some own) := by
  let library : Library := ⟨fun _ ↦ none⟩
  let outer : Closure := ⟨["f"], [.symbol "f", .number 1], []⟩
  let inner : Closure := ⟨["x"], [.symbol "def", .qexpr [.symbol "y"], .symbol "x"], []⟩
  let v : Value := .sexpr [outer.expression, inner.expression]
  let m₀ := Machine.start .empty
  let m₁ := m₀.enter [("f", (Function.closure inner).toValue)] globalScope
  let m₂ := m₁.enter [("x", .number 1)] 1
  have hchain : m₀.store.HasChain globalScope [globalScope] := hasChain_start .empty
  have hchain₁ : m₁.store.HasChain 1 [1, globalScope] := hchain.push_nextId _
  have hchain₂ : m₂.store.HasChain 2 [2, 1, globalScope] := hchain₁.push_nextId _
  -- the cells of the form, of the body of the first closure and of that of the second
  have hexpression (c : Closure) : Derives library globalScope (.value c.expression) m₀
      [.closure c.formals c.body []] m₀ :=
    evaluates_iff_derives.mp
      ((Closure.evaluates_expression_iff (lookup?_start .lambda .empty)).mpr ⟨rfl, rfl⟩)
  have hcells : Derives library globalScope (.cells [outer.expression, inner.expression]) m₀
      [(Function.closure outer).toValue, (Function.closure inner).toValue] m₀ :=
    .cell (hexpression outer) (.cell (hexpression inner) .noCells)
  have hcells₁ : Derives library 1 (.cells [.symbol "f", .number 1]) m₁
      [(Function.closure inner).toValue, .number 1] m₁ :=
    .cell (.bound (lookup?_of_find? rfl)) (.cell (.inert trivial) .noCells)
  have hdef : m₂.store.lookup? 2 "def" = some (.primitive (.define .globally)) :=
    (hchain₁.lookup?_push_nextId _ "def").trans
      ((hchain.lookup?_push_nextId _ "def").trans (lookup?_start (.define .globally) .empty))
  have hcells₂ : Derives library 2
      (.cells [.symbol "def", .qexpr [.symbol "y"], .symbol "x"]) m₂
      [(Function.primitive (.define .globally)).toValue, .qexpr [.symbol "y"], .number 1] m₂ :=
    .cell (.bound hdef) (.cell (.inert trivial) (.cell (.bound (lookup?_of_find? rfl)) .noCells))
  have hreaches : Reaches library ⟨globalScope, .eval v, m₀, []⟩
      ⟨2, .call (.define .globally) [.qexpr [.symbol "y"], .number 1], m₂, [2, 1]⟩ :=
    .tail (.tail (.tail (.tail (.tail (.tail .refl
      (.apply hcells (List.forall_mem_singleton.mpr rfl))) (.body rfl))
      (.apply hcells₁ (List.forall_mem_singleton.mpr rfl))) (.body rfl))
      (.apply hcells₂ (List.forall_mem_cons.mpr ⟨rfl, List.forall_mem_singleton.mpr rfl⟩)))
      .primitive
  have hlinks (p : Option ScopeId) : v.links p = 0 := by
    simp [v, outer, inner, Closure.expression, Value.links]
  obtain ⟨hhoused, hplain⟩ := Memory.Activation.housed_start hlinks .empty (fun _ ↦ [])
    [globalScope]
  obtain ⟨hall, hmemory⟩ :=
    @frames_append_chain library ⟨globalScope, .eval v, m₀, []⟩ [globalScope] hchain rfl
  obtain ⟨-, hact, -, -, hdefines, -⟩ := hall _ hreaches
  obtain ⟨m', hends, -, hlookup⟩ := hdefines ["y"] [.number 1] rfl rfl
  obtain ⟨hforth, hback⟩ := hmemory _ _ hhoused hplain
  obtain ⟨linked, hlinked, place, contents, hdoes⟩ := hforth _ hreaches
  have hf : m₂.store.lookup? 2 "f" = some (Function.closure inner).toValue :=
    (hchain₁.lookup?_push_nextId _ "f").trans (hchain.lookup?_push_nextId _ "f")
  obtain ⟨own, hown⟩ := hdoes.mirrors.represents.exists_links_of_lookup? hchain₂ hf
  exact ⟨v, _, linked, m', own, hreaches, rfl, rfl,
    hact.trans (congrArg ([2, 1] ++ ·) hchain.chain_eq), hends, hlookup "y",
    hlinked, (hback linked hlinked).1, hown⟩

/-! ## What is left when an activity has ended -/

/-- In the course of applying a closure everything but the application itself happens in frames. -/
theorem Reaches.eq_or_frames_ne_nil {scope : ScopeId} {closure : Closure} {args : List Value}
    {m : Machine} (h : Reaches library ⟨scope, .apply (.closure closure) args, m, []⟩ act) :
    act = ⟨scope, .apply (.closure closure) args, m, []⟩ ∨ act.frames ≠ [] := by
  induction h with
  | refl => exact Or.inl rfl
  | tail _ hcalls ih =>
    refine Or.inr ?_
    rcases ih with rfl | hframes
    · cases hcalls
      exact List.cons_ne_nil _ _
    · rcases hcalls.stays_or_enters with ⟨-, heq, -⟩ | ⟨_, -, heq, -⟩
      · rwa [heq]
      · rw [heq]
        exact List.cons_ne_nil _ _

/-- With frames running, things happen in a scope that was not there at the start. -/
theorem Stack.nextId_le_scope (h : start.Stack ids act) (hframes : act.frames ≠ []) :
    start.machine.store.nextId ≤ act.scope := by
  obtain ⟨frame, frames, heq⟩ := List.exists_cons_of_ne_nil hframes
  obtain ⟨rest, hids⟩ := h.hasChain.eq_cons
  rw [heq, List.cons_append, List.cons.injEq] at hids
  refine ((h.mem_frames_iff act.scope).mp ?_).1
  rw [heq, hids.1]
  exact List.mem_cons_self

end Activation

/-- A definition changes nothing but its target. -/
theorem Activity.Ends.changesOnly_target {scope : ScopeId} {target : Target} {args : List Value}
    {m m' : Machine} {a : Value}
    (h : (Activity.call (.define target) args).Ends library scope m a m') :
    m.store.ChangesOnly (· = m.store.target scope target) m'.store := by
  have hcomes := ends_call_iff.mp h
  rw [Primitive.action, Primitive.request] at hcomes
  cases hentries : definitions (Primitive.define target).name args with
  | error cause =>
    rw [hentries] at hcomes
    cases hcomes
    exact .refl _ _
  | ok entries =>
    rw [hentries] at hcomes
    cases hcomes
    exact m.store.changesOnly_bindAll target scope entries

/-- **Frame theorem.** Let the chain of a scope end, and let an activity in that scope end. Then
nothing has changed but the bindings of that scope and of its root, and no name that could be looked
up anywhere has become unbound. If the activity was to apply a closure, only the root has changed,
and no `=` on the way has written to a scope that was there before. -/
theorem Activity.Ends.changesOnly_scope_and_root {scope : ScopeId} {activity : Activity}
    {ids : List ScopeId} {m m' : Machine} {a : Value} (hchain : m.store.HasChain scope ids)
    (h : activity.Ends library scope m a m') :
    m.store.ChangesOnly (fun id ↦ id = scope ∨ id = m.store.root scope) m'.store ∧
      (∀ id name, (m.store.lookup? id name).isSome → (m'.store.lookup? id name).isSome) ∧
      ∀ closure args, activity = .apply (.closure closure) args →
        m.store.ChangesOnly (· = m.store.root scope) m'.store ∧
          ∀ act, Activation.Reaches library ⟨scope, activity, m, []⟩ act →
            ∀ values, act.activity = .call (.define .locally) values →
              ∀ b m₁, act.Ends library b m₁ → ∀ id, (m.store.scope? id).isSome →
                m₁.store.scope? id = act.machine.store.scope? id := by
  have hchanges := h.changesFrom ids hchain
  refine ⟨hchanges, hchanges.isSome_lookup?, fun closure args hactivity ↦ ?_⟩
  subst hactivity
  refine ⟨h.changesOnly_root hchain, fun act hreaches values hcall b m₁ hends id hid ↦ ?_⟩
  have hframes : act.frames ≠ [] := by
    rcases hreaches.eq_or_frames_ne_nil with rfl | hframes
    · cases hcall
    · exact hframes
  rw [Activation.Ends, hcall] at hends
  refine hends.changesOnly_target.scope?_eq ?_
  have hle := (Activation.Stack.of_reaches hchain rfl hreaches).nextId_le_scope hframes
  exact Nat.ne_of_lt (Nat.lt_of_lt_of_le (lt_nextId_of_isSome hid) hle)

/-- A closure that assigns to a name is applied in a scope around which is the global one. -/
theorem changesOnly_scope_and_root_of_assignment :
    ∃ (m m' m₁ : Machine) (act : Activation) (a b : Value),
      m.store.HasChain 1 [1, globalScope] ∧
      (Activity.apply (.closure ⟨["x"], [.symbol "=", .qexpr [.symbol "y"], .symbol "x"], []⟩)
        [.number 7]).Ends ⟨fun _ ↦ none⟩ 1 m a m' ∧
      act.activity = .call (.define .locally) [.qexpr [.symbol "y"], .number 7] ∧
      act.Ends ⟨fun _ ↦ none⟩ b m₁ ∧ m'.store.scope? 1 = m.store.scope? 1 ∧
      m₁.store.scope? 1 = act.machine.store.scope? 1 := by
  obtain ⟨m, hm⟩ : ∃ m, m = (Machine.start .empty).enter [] globalScope := ⟨_, rfl⟩
  have hchain : m.store.HasChain 1 [1, globalScope] :=
    hm ▸ (hasChain_start .empty).push_nextId []
  have houter : m.store.lookup? 1 "=" = some (.primitive (.define .locally)) := by
    rw [hm]
    exact ((hasChain_start .empty).lookup?_push_nextId [] "=").trans
      (lookup?_start (.define .locally) .empty)
  have hassign : (m.enter [("x", .number 7)] 1).store.lookup? m.store.nextId "="
      = some (.primitive (.define .locally)) :=
    (hchain.lookup?_push_nextId [("x", .number 7)] "=").trans houter
  have hx : (m.enter [("x", .number 7)] 1).store.lookup? m.store.nextId "x"
      = some (.number 7) :=
    hchain.lookup?_push_nextId [("x", .number 7)] "x"
  have hcells : Derives ⟨fun _ ↦ none⟩ m.store.nextId
      (.cells [.symbol "=", .qexpr [.symbol "y"], .symbol "x"]) (m.enter [("x", .number 7)] 1)
      [(Function.primitive (.define .locally)).toValue, .qexpr [.symbol "y"], .number 7]
      (m.enter [("x", .number 7)] 1) :=
    .cell (.bound hassign) (.cell (.inert trivial) (.cell (.bound hx) .noCells))
  obtain ⟨m', hends⟩ : ∃ m', (Activity.apply (.closure ⟨["x"],
      [.symbol "=", .qexpr [.symbol "y"], .symbol "x"], []⟩) [.number 7]).Ends ⟨fun _ ↦ none⟩ 1 m
      .unit m' := ⟨_, Activity.ends_apply_iff.mpr (.enter (.bind hcells rfl))⟩
  have hreaches : Activation.Reaches ⟨fun _ ↦ none⟩
      ⟨1, .apply (.closure ⟨["x"], [.symbol "=", .qexpr [.symbol "y"], .symbol "x"], []⟩)
        [.number 7], m, []⟩
      ⟨m.store.nextId, .call (.define .locally) [.qexpr [.symbol "y"], .number 7],
        m.enter [("x", .number 7)] 1, [m.store.nextId]⟩ :=
    .tail (.tail (.tail .refl (.body rfl))
      (.apply hcells (by decide))) .primitive
  have hcall : Activation.Ends ⟨fun _ ↦ none⟩
      ⟨m.store.nextId, .call (.define .locally) [.qexpr [.symbol "y"], .number 7],
        m.enter [("x", .number 7)] 1, [m.store.nextId]⟩ .unit
      ((m.enter [("x", .number 7)] 1).bindAll .locally m.store.nextId [("y", .number 7)]) :=
    Activity.ends_call_iff.mpr .bind
  obtain ⟨-, -, happly⟩ := Activity.Ends.changesOnly_scope_and_root hchain hends
  obtain ⟨hroot, hassigns⟩ := happly _ _ rfl
  have hne : 1 ≠ m.store.root 1 := by
    rw [← Option.some.inj hchain.getLast?_eq]
    decide
  exact ⟨m, m', _, _, _, _, hchain, hends, rfl, hcall, hroot.scope?_eq hne,
    hassigns _ hreaches _ rfl _ _ hcall 1 hchain.isSome_scope?⟩

end QuoteLisp
