import SoundLaw.Proofs.Matching
import SoundLaw.Proofs.Wiring.References

/-!
# Live graphs

Every state that is drawn lies on a way from the start of its graph to the accepting state, so
that no other state can be one that leads nowhere. A single walk visits all the states of an item;
in a row the walks are put end to end, and in a fan they lie side by side between two states. The
states of a wiring and those of the graphs it rests on are, between them, the numbers that it took
from the supply, which is why no two graphs have a state in common.
-/

namespace SoundLaw
set_option autoImplicit false

/-! ### Ways -/

/-- Some transition leads from one state to the other, whatever it reads. -/
def Arc (ts : List Transition) (a b : Nat) : Prop := ∃ t ∈ ts, t.source = a ∧ t.target = b

abbrev Way (ts : List Transition) : Nat → Nat → Prop := Relation.ReflTransGen (Arc ts)

section Ways
variable {ts us : List Transition} {a b : Nat}

theorem Way.mono (h : Way ts a b) (hsub : ts ⊆ us) : Way us a b :=
  Relation.ReflTransGen.mono (fun _ _ ⟨t, ht, hab⟩ => ⟨t, hsub ht, hab⟩) _ _ h

/-- The states of a walk lie on a way from its first one to its last one. -/
theorem ways_of_walk {walk : List Nat} (h : (a :: walk).IsChain (Arc ts))
    (hlast : (a :: walk).getLast? = some b) :
    ∀ s ∈ a :: walk, Way ts a s ∧ Way ts s b := by
  induction walk generalizing a with
  | nil =>
    obtain rfl := Option.some.inj hlast
    exact List.forall_mem_singleton.mpr ⟨.refl, .refl⟩
  | cons next walk ih =>
    obtain ⟨hnext, hwalk⟩ := List.isChain_cons_cons.mp h
    rw [List.getLast?_cons_cons] at hlast
    have hbehind := ih hwalk hlast
    have hend := (hbehind next List.mem_cons_self).2
    refine List.forall_mem_cons.mpr ⟨⟨.refl, .head hnext hend⟩, fun s hs => ?_⟩
    exact ⟨.head hnext (hbehind s hs).1, (hbehind s hs).2⟩

end Ways

/-- Every state lies on a way from the start to the accepting state, and no other one accepts.
The states that are bound to graphs are states of the graph, each with one graph. -/
structure Graph.IsLive (g : Graph) : Prop where
  reached : ∀ s ∈ g.states, Way g.transitions g.start s
  leads : ∀ s ∈ g.states, Way g.transitions s g.accept
  accepting : g.states.filter g.isAccepting = [g.accept]
  bound : (g.bound.map Prod.fst).Nodup ∧ ∀ p ∈ g.bound, p.1 ∈ g.states

theorem Graph.mem_states {g : Graph} {s : Nat} : s ∈ g.states ↔
    s = g.start ∨ s = g.accept ∨ ∃ t ∈ g.transitions, s = t.source ∨ s = t.target := by
  simp [states]

/-- A state that leads to the accepting one is that state, or has a transition. -/
theorem Graph.isAccepting_iff_of_way {g : Graph} {s : Nat} (h : Way g.transitions s g.accept) :
    g.isAccepting s = true ↔ s = g.accept := by
  constructor
  · intro haccepting
    rcases h.cases_head with heq | ⟨_, ⟨t, ht, rfl, -⟩, -⟩
    · exact heq
    · have hleaves : (g.transitionsOf t.source).isEmpty = false := by
        rw [List.isEmpty_eq_false_iff]
        exact List.ne_nil_of_mem (List.mem_filter.mpr ⟨ht, beq_self_eq_true _⟩)
      simpa [isAccepting, hleaves] using haccepting
  · rintro rfl
    simp [isAccepting]

theorem Graph.filter_isAccepting {g : Graph}
    (h : ∀ s ∈ g.states, Way g.transitions s g.accept) :
    g.states.filter g.isAccepting = [g.accept] := by
  refine List.perm_singleton.mp ?_
  refine (List.perm_ext_iff_of_nodup ((nodup_eraseDups _).filter _) (by simp)).mpr ?_
  intro s
  rw [List.mem_filter, List.mem_singleton]
  constructor
  · rintro ⟨hs, haccepting⟩
    exact (isAccepting_iff_of_way (h s hs)).mp haccepting
  · rintro rfl
    exact ⟨mem_states.mpr (.inr (.inl rfl)), (isAccepting_iff_of_way .refl).mpr rfl⟩

/-! ### Numbers that were taken -/

/-- States, and those of live graphs, that make up the numbers from `first` to `last`. -/
structure Taken (own : List Nat) (graphs : List Graph) (first last : Nat) : Prop where
  le : first ≤ last
  once : (own ++ graphs.flatMap Graph.states).Perm (List.range' first (last - first))
  live : ∀ g ∈ graphs, g.IsLive

namespace Taken
variable {own oa ob : List Nat} {graphs ga gb : List Graph} {g : Graph}
variable {first last middle n : Nat}

theorem nil : Taken [] [] n n := ⟨Nat.le_refl n, by simp, List.forall_mem_nil _⟩

theorem nodup (h : Taken own graphs first last) : own.Nodup :=
  (List.sublist_append_left own _).nodup (h.once.nodup_iff.mpr (List.nodup_range' 1))

theorem append (ha : Taken oa ga first middle) (hb : Taken ob gb middle last) :
    Taken (oa ++ ob) (ga ++ gb) first last where
  le := Nat.le_trans ha.le hb.le
  once := by
    have hle := ha.le
    have hle' := hb.le
    have hrange : List.range' first (last - first) =
        List.range' first (middle - first) ++ List.range' middle (last - middle) := by
      have hmiddle : middle = first + (middle - first) := by omega
      have hcount : last - first = (middle - first) + (last - middle) := by omega
      rw [hcount, ← List.range'_append_1, ← hmiddle]
    rw [hrange]
    exact (perm_append_flatMap Graph.states).trans (ha.once.append hb.once)
  live g hg := by
    rcases List.mem_append.mp hg with hg | hg
    · exact ha.live g hg
    · exact hb.live g hg

theorem cons (h : Taken own graphs (first + 1) last) : Taken (first :: own) graphs first last where
  le := Nat.le_of_succ_le h.le
  once := by
    have hle := h.le
    have hcount : last - first = (last - (first + 1)) + 1 := by omega
    rw [hcount, List.range'_succ]
    exact h.once.cons first
  live := h.live

theorem graph (h : Taken own graphs first last) (hstates : g.states.Perm own) (hlive : g.IsLive) :
    Taken [] (g :: graphs) first last where
  le := h.le
  once := by
    rw [List.nil_append, List.flatMap_cons]
    exact (hstates.append_right _).trans h.once
  live := List.forall_mem_cons.mpr ⟨hlive, h.live⟩

end Taken

/-! ### Wirings -/

namespace Wiring

/-- Every state of a wiring lies on a way from the state it is drawn behind to where it ends. Apart
from its own states its transitions only lead to shared ones. -/
structure Carries (w : Wiring) (before behind : Nat) (own shared : List Nat) : Prop where
  source : ∀ t ∈ w.transitions, t.source ∈ before :: own
  target : ∀ t ∈ w.transitions, t.target ∈ own ∨ t.target ∈ shared
  bound : (w.bound.map Prod.fst).Sublist own
  reached : ∀ s ∈ own, Way w.transitions before s
  leads : ∀ s ∈ own, Way w.transitions s behind

/-- The wiring of a row, which has its exit to itself. -/
def IsLiveRow (w : Wiring) (before : Nat) (s : Supply) : Prop :=
  ∃ own, Taken own w.graphs s.state w.supply.state ∧ w.Carries before w.exit own [] ∧
    w.exit ∈ before :: own

/-- The wiring of alternatives, which share their exit. -/
def IsLiveFan (w : Wiring) (before behind : Nat) (s : Supply) : Prop :=
  ∃ own, Taken own w.graphs s.state w.supply.state ∧ w.Carries before behind own [behind] ∧
    w.exit = behind

variable {a b w rest : Wiring} {before between behind start last : Nat} {s : Supply}
variable {own oa ob shared shared' all : List Nat}

theorem carries_stay (supply : Supply) : (stay last supply).Carries before behind [] shared := by
  constructor <;> simp [stay]

theorem Carries.way (h : w.Carries before w.exit own shared) (hexit : w.exit ∈ before :: own) :
    Way w.transitions before w.exit := by
  rcases List.mem_cons.mp hexit with hexit | hexit
  · rw [hexit]
  · exact h.reached _ hexit

/-- One wiring is drawn behind a state that the other one reaches, which goes on from where it ends
to the end of both. -/
theorem Carries.join (ha : a.Carries before between oa shared)
    (hb : b.Carries last behind ob shared') (hlast : last ∈ before :: oa)
    (hway : Way a.transitions before last) (hend : Way (a.join b).transitions between behind)
    (hshared : shared ⊆ shared') : (a.join b).Carries before behind (oa ++ ob) shared' := by
  have hleft : a.transitions ⊆ (a.join b).transitions := List.subset_append_left _ _
  have hright : b.transitions ⊆ (a.join b).transitions := List.subset_append_right _ _
  refine ⟨fun t ht => ?_, fun t ht => ?_, ?_, fun x hx => ?_, fun x hx => ?_⟩
  · rcases List.mem_append.mp ht with ht | ht
    · exact List.mem_append_left ob (ha.source t ht)
    · rcases List.mem_cons.mp (hb.source t ht) with hs | hs
      · exact hs ▸ List.mem_append_left ob hlast
      · exact List.mem_append_right (before :: oa) hs
  · rcases List.mem_append.mp ht with ht | ht
    · exact (ha.target t ht).imp (fun hs => List.mem_append_left ob hs) fun hs => hshared hs
    · exact (hb.target t ht).imp_left fun hs => List.mem_append_right oa hs
  · have hbound := ha.bound.append hb.bound
    rwa [← List.map_append] at hbound
  · rcases List.mem_append.mp hx with hx | hx
    · exact (ha.reached x hx).mono hleft
    · exact (hway.mono hleft).trans ((hb.reached x hx).mono hright)
  · rcases List.mem_append.mp hx with hx | hx
    · exact ((ha.leads x hx).mono hleft).trans hend
    · exact (hb.leads x hx).mono hright

/-! ### The states of a closed wiring -/

theorem Carries.mem_states (h : w.Carries start w.exit own shared) (hshared : shared ⊆ [w.exit])
    {x : Nat} : x ∈ (w.close start).states ↔ x ∈ start :: w.exit :: own := by
  rw [Graph.mem_states]
  constructor
  · rintro (rfl | rfl | ⟨t, ht, rfl | rfl⟩)
    · exact List.mem_cons_self
    · exact List.mem_cons_of_mem _ List.mem_cons_self
    · rcases List.mem_cons.mp (h.source t ht) with hs | hs <;> simp [hs]
    · rcases h.target t ht with hs | hs
      · simp [hs]
      · simp [List.mem_singleton.mp (hshared hs)]
  · intro hx
    rcases List.mem_cons.mp hx with rfl | hx
    · exact .inl rfl
    rcases List.mem_cons.mp hx with rfl | hx
    · exact .inr (.inl rfl)
    · rcases (h.reached x hx).cases_tail with heq | ⟨_, -, t, ht, -, htarget⟩
      · exact .inl heq
      · exact .inr (.inr ⟨t, ht, .inr htarget.symm⟩)

theorem Carries.isLive (h : w.Carries start w.exit own shared) (hshared : shared ⊆ [w.exit])
    (hway : Way w.transitions start w.exit) (hown : own.Nodup) : (w.close start).IsLive := by
  have hleads : ∀ s ∈ (w.close start).states, Way w.transitions s w.exit := by
    intro s hs
    rw [h.mem_states hshared, List.mem_cons, List.mem_cons] at hs
    rcases hs with rfl | rfl | hs
    · exact hway
    · exact .refl
    · exact h.leads s hs
  refine ⟨fun s hs => ?_, hleads, Graph.filter_isAccepting hleads, h.bound.nodup hown, ?_⟩
  · rw [h.mem_states hshared, List.mem_cons, List.mem_cons] at hs
    rcases hs with rfl | rfl | hs
    · exact .refl
    · exact hway
    · exact h.reached s hs
  · intro p hp
    have hmem := h.bound.subset (List.mem_map_of_mem hp)
    rw [h.mem_states hshared]
    exact List.mem_cons_of_mem _ (List.mem_cons_of_mem _ hmem)

theorem Carries.close (h : w.Carries start w.exit own shared) (hshared : shared ⊆ [w.exit])
    (hway : Way w.transitions start w.exit) (htaken : Taken all w.graphs start last)
    (hall : ∀ x, x ∈ all ↔ x ∈ start :: w.exit :: own) (hown : own.Sublist all) :
    Taken [] (w.close start :: w.graphs) start last := by
  refine htaken.graph ?_ (h.isLive hshared hway (hown.nodup htaken.nodup))
  refine (List.perm_ext_iff_of_nodup (nodup_eraseDups _) htaken.nodup).mpr fun x => ?_
  exact (h.mem_states hshared).trans (hall x).symm

/-! ### Rows -/

theorem isLiveRow_stay : (stay before s).IsLiveRow before s :=
  ⟨[], .nil, carries_stay s, List.mem_cons_self⟩

/-- A wiring whose states are visited by one walk. -/
theorem isLiveRow_of_walk (walk : List Nat) (hgraphs : w.graphs = [])
    (hsupply : w.supply.state = s.state + walk.length)
    (hwalk : walk.Perm (List.range' s.state walk.length))
    (hsource : ∀ t ∈ w.transitions, t.source ∈ before :: walk)
    (htarget : ∀ t ∈ w.transitions, t.target ∈ walk) (hbound : (w.bound.map Prod.fst).Sublist walk)
    (hvisits : ∃ visits, (before :: visits).IsChain (Arc w.transitions) ∧
      (before :: visits).getLast? = some w.exit ∧ walk ⊆ visits)
    (hexit : w.exit ∈ walk) : w.IsLiveRow before s := by
  obtain ⟨visits, hchain, hlast, hsub⟩ := hvisits
  have hways := ways_of_walk hchain hlast
  have hcount : w.supply.state - s.state = walk.length := by omega
  refine ⟨walk, ⟨by omega, ?_, ?_⟩, ⟨hsource, fun t ht => .inl (htarget t ht), hbound, ?_, ?_⟩,
    List.mem_cons_of_mem _ hexit⟩
  · rw [hgraphs, List.flatMap_nil, List.append_nil, hcount]
    exact hwalk
  · rw [hgraphs]
    exact List.forall_mem_nil _
  · exact fun s hs => (hways s (List.mem_cons_of_mem _ (hsub hs))).1
  · exact fun s hs => (hways s (List.mem_cons_of_mem _ (hsub hs))).2

/-- The graphs that a wiring rests on may have been built before it was drawn. -/
theorem IsLiveRow.restOn {graphs : List Graph} {first : Supply}
    (hgraphs : Taken [] graphs first.state s.state) (hw : w.IsLiveRow before s) :
    { w with graphs := graphs ++ w.graphs }.IsLiveRow before first := by
  obtain ⟨own, htaken, hcarries, hexit⟩ := hw
  exact ⟨own, hgraphs.append htaken, ⟨hcarries.source, hcarries.target, hcarries.bound,
    hcarries.reached, hcarries.leads⟩, hexit⟩

theorem IsLiveRow.join (ha : a.IsLiveRow before s) (hb : b.IsLiveRow a.exit a.supply) :
    (a.join b).IsLiveRow before s := by
  obtain ⟨oa, htaken, ha, hexit⟩ := ha
  obtain ⟨ob, htaken', hb, hexit'⟩ := hb
  have hway := (hb.way hexit').mono (List.subset_append_right a.transitions _)
  refine ⟨oa ++ ob, htaken.append htaken',
    ha.join hb hexit (ha.way hexit) hway (List.nil_subset _), ?_⟩
  rcases List.mem_cons.mp hexit' with hexit' | hexit'
  · exact hexit' ▸ List.mem_append_left ob hexit
  · exact List.mem_append_right (before :: oa) hexit'

/-! ### Fans -/

theorem isLiveFan_stay : (stay behind s).IsLiveFan before behind s :=
  ⟨[], .nil, carries_stay s, rfl⟩

theorem subset_leadTo : w.transitions ⊆ (w.leadTo behind).transitions :=
  List.subset_append_left _ _

theorem arc_leadTo : Arc (w.leadTo behind).transitions w.exit behind :=
  ⟨skip w.exit behind, List.mem_append_right _ List.mem_cons_self, rfl, rfl⟩

theorem Carries.leadTo (h : w.Carries before w.exit own []) (hexit : w.exit ∈ before :: own) :
    (w.leadTo behind).Carries before behind own [behind] := by
  refine ⟨fun t ht => ?_, fun t ht => ?_, h.bound, fun x hx => (h.reached x hx).mono subset_leadTo,
    fun x hx => ((h.leads x hx).mono subset_leadTo).tail arc_leadTo⟩
  · rcases List.mem_append.mp ht with ht | ht
    · exact h.source t ht
    · obtain rfl := List.mem_singleton.mp ht
      exact hexit
  · rcases List.mem_append.mp ht with ht | ht
    · exact (h.target t ht).imp_right fun hs => absurd hs List.not_mem_nil
    · obtain rfl := List.mem_singleton.mp ht
      exact .inr (List.mem_singleton_self behind)

/-- The exit of one alternative leads to the exit that all of them share. -/
theorem IsLiveRow.way_leadTo (hw : w.IsLiveRow before s) :
    Way ((w.leadTo behind).join rest).transitions before behind := by
  obtain ⟨own, -, hw, hexit⟩ := hw
  have hway : Way (w.leadTo behind).transitions before behind :=
    ((hw.way hexit).mono subset_leadTo).tail arc_leadTo
  exact hway.mono (List.subset_append_left _ _)

theorem IsLiveFan.cons (hw : w.IsLiveRow before s) (hrest : rest.IsLiveFan before behind w.supply) :
    ((w.leadTo behind).join rest).IsLiveFan before behind s := by
  obtain ⟨own, htaken, hw, hexit⟩ := hw
  obtain ⟨others, htaken', hrest, hbehind⟩ := hrest
  exact ⟨own ++ others, htaken.append htaken', (hw.leadTo hexit).join hrest List.mem_cons_self .refl
    .refl (List.Subset.refl _), hbehind⟩

/-! ### Closing -/

theorem IsLiveRow.close {n : Nat} (h : w.IsLiveRow start ⟨start + 1, n⟩) :
    Taken [] (w.close start :: w.graphs) start w.supply.state := by
  obtain ⟨own, htaken, hcarries, hexit⟩ := h
  refine hcarries.close (List.nil_subset _) (hcarries.way hexit) htaken.cons (fun x => ?_)
    (List.sublist_cons_self _ _)
  constructor
  · exact fun hx => (List.mem_cons.mp hx).elim (· ▸ List.mem_cons_self)
      fun hx => List.mem_cons_of_mem _ (List.mem_cons_of_mem _ hx)
  · intro hx
    rcases List.mem_cons.mp hx with rfl | hx
    · exact List.mem_cons_self
    · rcases List.mem_cons.mp hx with rfl | hx
      · exact hexit
      · exact List.mem_cons_of_mem _ hx

/-- With an alternative, the start leads to the exit that the alternatives share. -/
theorem IsLiveFan.close {n : Nat} (h : w.IsLiveFan start (start + 1) ⟨start + 2, n⟩)
    (hway : Way w.transitions start (start + 1)) :
    Taken [] (w.close start :: w.graphs) start w.supply.state := by
  obtain ⟨own, htaken, hcarries, hexit⟩ := h
  rw [← hexit] at hway hcarries
  refine hcarries.close (List.Subset.refl _) hway htaken.cons.cons (fun x => by rw [hexit]) ?_
  exact (List.sublist_cons_self _ _).trans (List.sublist_cons_self _ _)

end Wiring

/-! ### Parts -/

/-- The graphs of a part, built with a supply, have the states that it took. -/
def Built.IsTaken (b : Built) (s : Supply) : Prop :=
  Taken [] b.graphs s.state b.supply.state

section Parts
variable {b : Built} {w : Wiring} {s : Supply} {before : Nat} {q : Quantifier}

theorem isLiveRow_wireLabel (label : Label) :
    (wireLabel label q before s).IsLiveRow before s := by
  cases q with
  | one | optional =>
    refine Wiring.isLiveRow_of_walk [s.state] rfl rfl (.refl _) ?_ ?_ (by simp [wireLabel])
      ⟨[s.state], ?_, rfl, List.Subset.refl _⟩ (by simp [wireLabel]) <;>
      simp [wireLabel, skip, Arc]
  | star | plus =>
    refine Wiring.isLiveRow_of_walk [s.state, s.state + 1] rfl rfl (.refl _) ?_ ?_
      (by simp [wireLabel]) ⟨[s.state + 1, s.state], ?_, rfl, ?_⟩ (by simp [wireLabel]) <;>
      simp [wireLabel, skip, Arc]

theorem isLiveRow_wireNested (graph : Nat) :
    (wireNested graph q before s).IsLiveRow before s := by
  cases q with
  | one | optional =>
    refine Wiring.isLiveRow_of_walk [s.state, s.state + 1] rfl rfl (.refl _) ?_ ?_
      (by simp [wireNested]) ⟨[s.state, s.state + 1], ?_, rfl, ?_⟩ (by simp [wireNested]) <;>
      simp [wireNested, skip, Arc]
  | star =>
    refine Wiring.isLiveRow_of_walk [s.state, s.state + 1, s.state + 2] rfl rfl (.refl _)
      ?_ ?_ (by simp [wireNested])
      ⟨[s.state + 2, s.state, s.state + 2, s.state + 1], ?_, rfl, ?_⟩ (by simp [wireNested]) <;>
      simp [wireNested, skip, Arc]
  | plus =>
    refine Wiring.isLiveRow_of_walk [s.state, s.state + 1, s.state + 2] rfl rfl (.refl _)
      ?_ ?_ (by simp [wireNested])
      ⟨[s.state + 2, s.state, s.state + 1], ?_, rfl, ?_⟩ (by simp [wireNested]) <;>
      simp [wireNested, skip, Arc]

theorem Built.IsTaken.wirePart (h : b.IsTaken s) : (wirePart b q before).IsLiveRow before s := by
  obtain ⟨part, graphs, s'⟩ := b
  cases part with
  | transition label => exact (isLiveRow_wireLabel label).restOn h
  | nested graph => exact (isLiveRow_wireNested graph).restOn h

theorem isTaken_buildGraph {wire : Nat → Supply → Wiring}
    (h : (wire s.state ⟨s.state + 1, s.graph + 1⟩).IsLiveRow s.state
      ⟨s.state + 1, s.graph + 1⟩) : (buildGraph wire s).IsTaken s :=
  h.close

theorem isLiveRow_wireItem {build : Supply → Built} {m : Marks} (h : ∀ s, (build s).IsTaken s) :
    (wireItem m build before s).IsLiveRow before s := by
  unfold wireItem
  split
  · have hgraph : (buildGraph (fun start s => wirePart (build s) .one start) s).IsTaken s :=
      isTaken_buildGraph (h _).wirePart
    have hpart : Built.IsTaken { buildGraph (fun start s => wirePart (build s) .one start) s with
        part := .transition (.absence s.graph) } s := hgraph
    exact hpart.wirePart
  · exact (h s).wirePart

end Parts

/-! ### Expressions -/

section Expressions
variable {macros : MacroTable} {side : Side} {es : List Expression}

theorem isLiveRow_wireRow (h : ∀ e ∈ es, ∀ s, (buildItem macros side e s).IsTaken s)
    (before : Nat) (s : Supply) : (wireRow macros side es before s).IsLiveRow before s := by
  induction es generalizing before s with
  | nil => exact Wiring.isLiveRow_stay
  | cons e es ih =>
    have he := h e List.mem_cons_self
    have hes := ih fun e he => h e (List.mem_cons_of_mem _ he)
    cases side with
    | right => exact (isLiveRow_wireItem he).join (hes _ _)
    | left => exact (hes before s).join (isLiveRow_wireItem he)

theorem isLiveFan_wireEach (h : ∀ e ∈ es, ∀ s, (buildItem macros side e s).IsTaken s)
    (before behind : Nat) (s : Supply) :
    (wireEach macros side es before behind s).IsLiveFan before behind s := by
  induction es generalizing s with
  | nil => exact Wiring.isLiveFan_stay
  | cons e es ih =>
    have he := h e List.mem_cons_self
    have hes := ih fun e he => h e (List.mem_cons_of_mem _ he)
    exact .cons (isLiveRow_wireItem he) (hes _)

theorem way_wireEach (h : ∀ e ∈ es, ∀ s, (buildItem macros side e s).IsTaken s)
    (hchoice : es ≠ []) (before behind : Nat) (s : Supply) :
    Way (wireEach macros side es before behind s).transitions before behind := by
  cases es with
  | nil => exact absurd rfl hchoice
  | cons e es => exact (isLiveRow_wireItem (h e List.mem_cons_self)).way_leadTo

/-- Without an alternative, the exit of an alternation could not be reached. -/
theorem isTaken_buildItem {e : Expression} (he : e.Everywhere Expression.HasChoice) (s : Supply) :
    (buildItem macros side e s).IsTaken s := by
  induction e using Expression.induct generalizing s with
  | terminal t m => exact .nil
  | group children m ih =>
    cases he with
    | intro _ hchildren =>
      exact isTaken_buildGraph (isLiveRow_wireRow (fun e he => ih e he (hchildren e he)) _ _)
  | alternation alternatives m ih =>
    cases he with
    | intro hchoice hchildren =>
      have heach := fun e he => ih e he (hchildren e he)
      have hfan := isLiveFan_wireEach heach s.state (s.state + 1) ⟨s.state + 2, s.graph + 1⟩
      exact hfan.close (way_wireEach heach hchoice s.state (s.state + 1) _)

end Expressions

namespace Automaton
variable {macros : MacroTable} {side : Side}

/-- The states of the graphs are numbered without gaps and without repetitions, every graph but the
first is referred to once and by one with a smaller number, and every graph is live. -/
structure IsWellFormed (a : Automaton) : Prop where
  states : ∃ n, (a.graphs.flatMap Graph.states).Perm (List.range n)
  once : (a.graphs.flatMap Graph.inner).Perm (List.range' 1 (a.graphs.length - 1))
  later : ∀ (i : Nat) (g : Graph), a.graphs[i]? = some g → ∀ sub ∈ g.inner, i < sub
  live : ∀ g ∈ a.graphs, g.IsLive

theorem isWellFormed_build {p : Pattern} (hp : ∀ e ∈ p, e.Everywhere Expression.HasChoice) :
    (build macros side p).IsWellFormed := by
  have htaken : (buildGraph (wireRow macros side p) ⟨0, 0⟩).IsTaken ⟨0, 0⟩ :=
    isTaken_buildGraph (isLiveRow_wireRow (fun e he => isTaken_buildItem (hp e he)) _ _)
  have hnests := nests_build macros side p
  have hone := hnests.once
  have hlength : (build macros side p).graphs.length =
      ((build macros side p).graphs.length - 1) + 1 := rfl
  refine ⟨⟨_, htaken.once.trans (by rw [List.range_eq_range'])⟩, ?_, ?_,
    htaken.live⟩
  · rw [hlength, List.range'_succ, List.singleton_append] at hone
    exact (List.perm_cons _).mp hone
  · intro i g hg sub hsub
    have hlater := hnests.later hg sub hsub
    rwa [root, Nat.zero_add] at hlater

/-- An automaton that is made from a text has no states that are dead and shares none between its
graphs. -/
theorem isWellFormed_of_ofText {text : String} {a : Automaton}
    (h : ofText macros side text = .ok a) : a.IsWellFormed := by
  obtain ⟨p, hp, rfl⟩ := exists_build h
  exact isWellFormed_build (Pattern.hasChoice_of_ofText hp)

theorem isWellFormed_arena :
    ∃ a, ofText (.empty .empty) .left "a!(bc)*\x7bd (e f+)?\x7d" = .ok a ∧
      a.graphs.length = 5 ∧ a.IsWellFormed := by
  have hok : ((ofText (.empty .empty) .left "a!(bc)*\x7bd (e f+)?\x7d").toOption.any
      fun a => a.graphs.length == 5) = true := by decide +kernel
  obtain ⟨a, ha, hlength⟩ := exists_ok_of_any hok
  exact ⟨a, ha, eq_of_beq hlength, isWellFormed_of_ofText ha⟩

end Automaton

end SoundLaw
