import ImportAtlas.Proofs.Graph.Cycles
import ImportAtlas.Proofs.Graph.Drawing

/-!
# Where dependencies are drawn

A module with dependencies is drawn with them the first time it is met, and marked whenever it is
met again. So each is expanded once, all that its dependencies lead to is expanded as well, and the
mark of a line follows from the modules above it and the lines before it. Where no line is marked
as a cycle, drawing goes the way of a depth-first search that closes none.
-/

namespace ImportAtlas.Drawn

variable {next : String → List String} {above drawn middle drawn' children : List String}
  {level : List Drawn} {child : String}

/-- The modules that are expanded while the drawn modules grow: each once, none that was drawn
before, and no module with dependencies is drawn without being expanded. -/
structure Expands (next : String → List String) (drawn drawn' expanded : List String) : Prop where
  nodup : expanded.Nodup
  next_ne_nil : ∀ u ∈ expanded, next u ≠ []
  fresh : ∀ u ∈ expanded, u ∉ drawn
  mem_drawn : ∀ u, next u ≠ [] → (u ∈ drawn' ↔ u ∈ drawn ∨ u ∈ expanded)

namespace Expands

variable {expanded below after : List String}

/-- Drawing a module without dependencies expands none. -/
theorem leaf (hnext : next child = []) (h : Expands next (child :: drawn) drawn' expanded) :
    Expands next drawn drawn' expanded where
  nodup := h.nodup
  next_ne_nil := h.next_ne_nil
  fresh u hu hdrawn := h.fresh u hu (.tail _ hdrawn)
  mem_drawn u hu := by
    have hne : u ≠ child := fun heq => hu (heq ▸ hnext)
    rw [h.mem_drawn u hu, List.mem_cons, or_iff_right hne]

/-- A module is expanded before what is expanded below it and after it. -/
theorem expand (hnext : next child ≠ []) (hdrawn : child ∉ drawn)
    (hbelow : Expands next (child :: drawn) middle below)
    (hafter : Expands next middle drawn' after) :
    Expands next drawn drawn' (child :: (below ++ after)) := by
  have hmiddle (u : String) (hu : u = child ∨ u ∈ drawn ∨ u ∈ below) (hne : next u ≠ []) :
      u ∈ middle := by
    rw [hbelow.mem_drawn u hne, List.mem_cons, or_assoc]
    exact hu
  have hfresh (u : String) (hu : u ∈ child :: below) : u ∉ after := by
    intro hua
    refine hafter.fresh u hua (hmiddle u ?_ (hafter.next_ne_nil u hua))
    exact (List.mem_cons.mp hu).imp_right .inr
  exact {
    nodup := by
      have hchild : child ∉ below := fun hmem => hbelow.fresh child hmem List.mem_cons_self
      rw [← List.cons_append]
      exact (hbelow.nodup.cons hchild).append hafter.nodup fun u hu hua => hfresh u hu hua
    next_ne_nil := by
      refine List.forall_mem_cons.mpr ⟨hnext, fun u hu => ?_⟩
      exact (List.mem_append.mp hu).elim (hbelow.next_ne_nil u) (hafter.next_ne_nil u)
    fresh := by
      refine List.forall_mem_cons.mpr ⟨hdrawn, fun u hu hold => ?_⟩
      rcases List.mem_append.mp hu with hu | hu
      · exact hbelow.fresh u hu (.tail _ hold)
      · exact hafter.fresh u hu (hmiddle u (.inr (.inl hold)) (hafter.next_ne_nil u hu))
    mem_drawn := fun u hu => by
      rw [hafter.mem_drawn u hu, hbelow.mem_drawn u hu, List.mem_cons, List.mem_cons,
        List.mem_append]
      tauto }

end Expands

namespace Draws

/-- What was drawn stays drawn. -/
theorem subset (h : Draws next above drawn children level drawn') : drawn ⊆ drawn' := by
  induction h with
  | done => exact fun _ hu => hu
  | cycle _ _ ih => exact ih
  | leaf _ _ _ ih => exact fun u hu => ih (.tail _ hu)
  | shared _ _ _ _ ih => exact ih
  | expand _ _ _ _ _ ihsub ihrest => exact fun u hu => ihrest (ihsub (.tail _ hu))

/-- Something is drawn below a module that has dependencies. -/
theorem ne_nil (h : Draws next above drawn (next child) level drawn') (hnext : next child ≠ []) :
    level ≠ [] := by
  rintro rfl
  exact hnext h.map_path.symm

/-- The modules that are expanded on the way. -/
theorem expands (h : Draws next above drawn children level drawn') (lasts : List Bool) :
    Expands next drawn drawn' (expandedPaths (levelPlaces above lasts level)) := by
  induction h generalizing lasts with
  | done => exact ⟨List.nodup_nil, by simp [levelPlaces, expandedPaths],
      by simp [levelPlaces, expandedPaths], by simp [levelPlaces, expandedPaths]⟩
  | cycle _ _ ih =>
    rw [expandedPaths_level_cons_nil]
    exact ih lasts
  | leaf _ hnext _ ih =>
    rw [expandedPaths_level_cons_nil]
    exact (ih lasts).leaf hnext
  | shared _ _ _ _ ih =>
    rw [expandedPaths_level_cons_nil]
    exact ih lasts
  | expand _ hnext hdrawn hsub _ ihsub ihrest =>
    rw [expandedPaths_level_cons _ _ _ _ _ (hsub.ne_nil hnext)]
    exact (ihsub _).expand hnext hdrawn (ihrest lasts)

/-- Below a module nothing is drawn but all its dependencies. -/
theorem children_eq (h : Draws next above drawn children level drawn') (lasts : List Bool) :
    ∀ p ∈ levelPlaces above lasts level, p.drawn.children ≠ [] →
      p.drawn.children.map Drawn.path = next p.drawn.path := by
  induction h generalizing lasts with
  | done => exact fun p hp => absurd hp List.not_mem_nil
  | cycle _ _ ih | leaf _ _ _ ih | shared _ _ _ _ ih =>
    rw [levelPlaces_cons_nil]
    exact List.forall_mem_cons.mpr ⟨fun hne => absurd rfl hne, ih lasts⟩
  | expand _ _ _ hsub _ ihsub ihrest =>
    rw [levelPlaces_cons]
    refine List.forall_mem_cons.mpr ⟨fun _ => hsub.map_path, fun p hp => ?_⟩
    exact (List.mem_append.mp hp).elim (ihsub _ p) (ihrest lasts p)

/-- The dependencies of what is expanded are drawn, as far as they have dependencies of their
own. -/
theorem closed (h : Draws next above drawn children level drawn') (habove : above ⊆ drawn)
    (lasts : List Bool) :
    (∀ c ∈ children, next c ≠ [] → c ∈ drawn') ∧
      ∀ u ∈ expandedPaths (levelPlaces above lasts level), ∀ c ∈ next u, next c ≠ [] → c ∈ drawn' := by
  induction h generalizing lasts with
  | done => exact ⟨by simp, by simp [levelPlaces, expandedPaths]⟩
  | cycle hmem hrest ih =>
    rw [expandedPaths_level_cons_nil]
    obtain ⟨hlevel, hbelow⟩ := ih habove lasts
    exact ⟨List.forall_mem_cons.mpr ⟨fun _ => hrest.subset (habove hmem), hlevel⟩, hbelow⟩
  | leaf _ hnext _ ih =>
    rw [expandedPaths_level_cons_nil]
    obtain ⟨hlevel, hbelow⟩ := ih (fun u hu => .tail _ (habove hu)) lasts
    exact ⟨List.forall_mem_cons.mpr ⟨fun hne => absurd hnext hne, hlevel⟩, hbelow⟩
  | shared _ _ hdrawn hrest ih =>
    rw [expandedPaths_level_cons_nil]
    obtain ⟨hlevel, hbelow⟩ := ih habove lasts
    exact ⟨List.forall_mem_cons.mpr ⟨fun _ => hrest.subset hdrawn, hlevel⟩, hbelow⟩
  | @expand above _ middle _ _ child _ _ _ hnext _ hsub hrest ihsub ihrest =>
    rw [expandedPaths_level_cons _ _ _ _ _ (hsub.ne_nil hnext)]
    have hmiddle : above ⊆ middle := fun u hu => hsub.subset (.tail _ (habove hu))
    obtain ⟨hchild, hbelow⟩ := ihsub (List.cons_subset_cons child habove) (_ :: lasts)
    obtain ⟨hlevel, hafter⟩ := ihrest hmiddle lasts
    refine ⟨List.forall_mem_cons.mpr
      ⟨fun _ => hrest.subset (hsub.subset List.mem_cons_self), hlevel⟩, ?_⟩
    refine List.forall_mem_cons.mpr ⟨fun c hc hne => hrest.subset (hchild c hc hne), fun u hu => ?_⟩
    rcases List.mem_append.mp hu with hu | hu
    · exact fun c hc hne => hrest.subset (hbelow u hu c hc hne)
    · exact hafter u hu

/-- The modules above a line follow each other along dependencies, from one of the children and the
modules above it on. -/
theorem chain (h : Draws next above drawn children level drawn')
    (habove : above.IsChain fun later earlier => later ∈ next earlier)
    (hchildren : ∀ parent ∈ above.head?, ∀ c ∈ children, c ∈ next parent) (lasts : List Bool) :
    ∀ p ∈ levelPlaces above lasts level,
      (p.drawn.path :: p.above).IsChain (fun later earlier => later ∈ next earlier) ∧
        ∃ c ∈ children, c :: above <:+ p.drawn.path :: p.above := by
  -- A child extends the chain above it, and what holds of the later children holds of all.
  have hfirst {above rest : List String} {child : String}
      (habove : above.IsChain fun later earlier => later ∈ next earlier)
      (hchildren : ∀ parent ∈ above.head?, ∀ c ∈ child :: rest, c ∈ next parent) :
      (child :: above).IsChain (fun later earlier => later ∈ next earlier) ∧
        ∃ c ∈ child :: rest, c :: above <:+ child :: above :=
    ⟨List.isChain_cons.mpr
        ⟨fun parent hp => hchildren parent hp child List.mem_cons_self, habove⟩,
      child, List.mem_cons_self, List.suffix_rfl⟩
  have hlater {above rest : List String} {child : String} {p : Place}
      (hp : (p.drawn.path :: p.above).IsChain (fun later earlier => later ∈ next earlier) ∧
        ∃ c ∈ rest, c :: above <:+ p.drawn.path :: p.above) :
      (p.drawn.path :: p.above).IsChain (fun later earlier => later ∈ next earlier) ∧
        ∃ c ∈ child :: rest, c :: above <:+ p.drawn.path :: p.above :=
    hp.imp_right fun ⟨c, hc, hsuffix⟩ => ⟨c, .tail _ hc, hsuffix⟩
  induction h generalizing lasts with
  | done => exact fun p hp => absurd hp List.not_mem_nil
  | cycle _ _ ih | leaf _ _ _ ih | shared _ _ _ _ ih =>
    rw [levelPlaces_cons_nil]
    refine List.forall_mem_cons.mpr ⟨hfirst habove hchildren, fun p hp => hlater ?_⟩
    exact ih habove (fun parent hparent c hc => hchildren parent hparent c (.tail _ hc)) lasts p hp
  | @expand above _ _ _ _ child _ _ _ _ _ _ _ ihsub ihrest =>
    rw [levelPlaces_cons]
    refine List.forall_mem_cons.mpr ⟨hfirst habove hchildren, fun p hp => ?_⟩
    rcases List.mem_append.mp hp with hp | hp
    · obtain ⟨hchain, c, -, hsuffix⟩ := ihsub (hfirst habove hchildren).1
        (fun parent hparent c hc => Option.some.inj hparent ▸ hc) _ p hp
      exact ⟨hchain, child, List.mem_cons_self, (List.suffix_cons c _).trans hsuffix⟩
    · exact hlater (ihrest habove
        (fun parent hparent c hc => hchildren parent hparent c (.tail _ hc)) lasts p hp)

end Draws

/-- The mark of a line, given the modules drawn before its level and the lines of the level before
it: a cycle if the module stands above itself, and shared if it does not and was expanded. -/
structure MarkedAfter (next : String → List String) (drawn : List String) (before : List Place)
    (p : Place) : Prop where
  cycle_iff : p.drawn.mark = .cycle ↔ p.drawn.path ∈ p.above
  shared_iff : p.drawn.mark = .shared ↔ next p.drawn.path ≠ [] ∧
    (p.drawn.path ∈ drawn ∨ p.drawn.path ∈ expandedPaths before) ∧ p.drawn.path ∉ p.above

section Marked

variable {p top : Place} {before before' rest : List Place}

/-- The mark is the same after other lines, if the same modules with dependencies were drawn. -/
theorem MarkedAfter.of_iff (h : MarkedAfter next drawn before p)
    (hiff : next p.drawn.path ≠ [] →
      ((p.drawn.path ∈ drawn ∨ p.drawn.path ∈ expandedPaths before) ↔
        (p.drawn.path ∈ drawn' ∨ p.drawn.path ∈ expandedPaths before'))) :
    MarkedAfter next drawn' before' p where
  cycle_iff := h.cycle_iff
  shared_iff := by rw [h.shared_iff, and_congr_right fun hne => and_congr_left' (hiff hne)]

/-- Every line has its mark if the first one has, and every other one after it. -/
theorem markedAfter_cons (htop : MarkedAfter next drawn [] top)
    (hrest : ∀ before p after, rest = before ++ p :: after →
      MarkedAfter next drawn (top :: before) p) :
    ∀ before p after, top :: rest = before ++ p :: after → MarkedAfter next drawn before p := by
  intro before p after heq
  cases before with
  | nil =>
    obtain ⟨rfl, -⟩ := List.cons.inj heq
    exact htop
  | cons first before =>
    obtain ⟨rfl, htail⟩ := List.cons.inj heq
    exact hrest before p after htail

end Marked

/-- A place in one list after another is in the first, or in the second after all of the first. -/
theorem exists_of_append_eq {α : Type*} {front back before after : List α} {p : α}
    (h : front ++ back = before ++ p :: after) :
    (∃ mid, front = before ++ p :: mid) ∨ ∃ mid, before = front ++ mid ∧ back = mid ++ p :: after := by
  rcases List.append_eq_append_iff.mp h with ⟨mid, hbefore, hback⟩ | ⟨mid, hfront, hmid⟩
  · exact .inr ⟨mid, hbefore, hback⟩
  · cases mid with
    | nil => exact .inr ⟨[], by rw [hfront, List.append_nil, List.append_nil], hmid.symm⟩
    | cons first mid =>
      obtain ⟨rfl, -⟩ := List.cons.inj hmid
      exact .inl ⟨mid, hfront⟩

namespace Draws

/-- Every line has its mark. -/
theorem marked (h : Draws next above drawn children level drawn') (lasts : List Bool) :
    ∀ before p after, levelPlaces above lasts level = before ++ p :: after →
      MarkedAfter next drawn before p := by
  induction h generalizing lasts with
  | done => exact fun before p after heq => absurd heq (by simp [levelPlaces])
  | cycle habove _ ih =>
    rw [levelPlaces_cons_nil]
    refine markedAfter_cons ⟨iff_of_true rfl habove, ?_⟩ fun before p after heq => ?_
    · exact iff_of_false DrawnMark.noConfusion fun hshared => hshared.2.2 habove
    · exact (ih lasts before p after heq).of_iff fun _ => by rw [expandedPaths_cons_nil]
  | leaf habove hnext _ ih =>
    rw [levelPlaces_cons_nil]
    refine markedAfter_cons ⟨iff_of_false DrawnMark.noConfusion habove, ?_⟩
      fun before p after heq => ?_
    · exact iff_of_false DrawnMark.noConfusion fun hshared => hshared.1 hnext
    · refine (ih lasts before p after heq).of_iff fun hne => ?_
      have hchild : p.drawn.path ≠ _ := fun heq => hne (heq ▸ hnext)
      rw [expandedPaths_cons_nil, List.mem_cons, or_iff_right hchild]
  | shared habove hnext hdrawn _ ih =>
    rw [levelPlaces_cons_nil]
    refine markedAfter_cons ⟨iff_of_false DrawnMark.noConfusion habove, ?_⟩
      fun before p after heq => ?_
    · exact iff_of_true rfl ⟨hnext, .inl hdrawn, habove⟩
    · exact (ih lasts before p after heq).of_iff fun _ => by rw [expandedPaths_cons_nil]
  | @expand above drawn middle _ _ child sub level habove hnext hdrawn hsub _ ihsub ihrest =>
    rw [levelPlaces_cons]
    refine markedAfter_cons ⟨iff_of_false DrawnMark.noConfusion habove, ?_⟩
      fun before p after heq => ?_
    · refine iff_of_false DrawnMark.noConfusion fun hshared => ?_
      exact hshared.2.1.elim hdrawn List.not_mem_nil
    have htop (lines : List Place) : expandedPaths
        (⟨above, level.isEmpty :: lasts, node child .plain sub⟩ :: lines) =
          child :: expandedPaths lines := expandedPaths_cons _ _ _ _ (hsub.ne_nil hnext) lines
    rcases exists_of_append_eq heq with ⟨mid, hmid⟩ | ⟨mid, rfl, hmid⟩
    · refine (ihsub _ before p mid hmid).of_iff fun _ => ?_
      rw [htop, List.mem_cons, List.mem_cons]
      tauto
    · refine (ihrest lasts mid p after hmid).of_iff fun hne => ?_
      rw [htop, expandedPaths_append, (hsub.expands _).mem_drawn _ hne, List.mem_cons, List.mem_cons,
        List.mem_append]
      tauto

/-- Where no line is marked as a cycle, the lines go the way of a search that closes no cycle. -/
theorem explores (h : Draws next above drawn children level drawn') (lasts : List Bool)
    (hnone : ∀ p ∈ levelPlaces above lasts level, p.drawn.mark ≠ .cycle)
    {p : Adjacency.Progress} (hvisited : ∀ v, v ∈ p.visited ↔ v ∈ drawn) :
    ∃ q, Adjacency.Explores next above children p q ∧ q.cycles = p.cycles ∧
      ∀ v, v ∈ q.visited ↔ v ∈ drawn' := by
  induction h generalizing lasts p with
  | done above drawn => exact ⟨p, .done above p, rfl, hvisited⟩
  | cycle _ _ _ =>
    rw [levelPlaces_cons_nil] at hnone
    exact absurd rfl (hnone _ List.mem_cons_self)
  | @leaf above drawn _ _ child _ habove hnext _ ih =>
    rw [levelPlaces_cons_nil] at hnone
    have hrest := (List.forall_mem_cons.mp hnone).2
    by_cases hchild : child ∈ p.visited
    · -- The search passes over a leaf that it has visited.
      obtain ⟨q, hexplores, hcycles, hend⟩ := ih lasts hrest (p := p) fun v => by
        rw [List.mem_cons, ← hvisited, or_iff_right_of_imp fun heq => heq ▸ hchild]
      exact ⟨q, .skip habove hchild hexplores, hcycles, hend⟩
    · obtain ⟨q, hexplores, hcycles, hend⟩ := ih lasts hrest
        (p := { p with visited := child :: p.visited }) fun v => by
          rw [List.mem_cons, List.mem_cons, hvisited]
      refine ⟨q, .enter habove hchild ?_ hexplores, hcycles, hend⟩
      rw [hnext]
      exact .done _ _
  | shared habove _ hdrawn _ ih =>
    rw [levelPlaces_cons_nil] at hnone
    obtain ⟨q, hexplores, hcycles, hend⟩ := ih lasts (List.forall_mem_cons.mp hnone).2 hvisited
    exact ⟨q, .skip habove ((hvisited _).mpr hdrawn) hexplores, hcycles, hend⟩
  | @expand above drawn _ _ _ child _ _ habove _ hdrawn _ _ ihsub ihrest =>
    rw [levelPlaces_cons] at hnone
    have hbelow := List.forall_mem_append.mp (List.forall_mem_cons.mp hnone).2
    obtain ⟨m, hchild, hcycles, hmiddle⟩ := ihsub _ hbelow.1
      (p := { p with visited := child :: p.visited }) fun v => by
        rw [List.mem_cons, List.mem_cons, hvisited]
    obtain ⟨q, hexplores, hcycles', hend⟩ := ihrest lasts hbelow.2 hmiddle
    exact ⟨q, .enter habove (fun hmem => hdrawn ((hvisited child).mp hmem)) hchild hexplores,
      hcycles'.trans hcycles, hend⟩

end Draws

end ImportAtlas.Drawn
