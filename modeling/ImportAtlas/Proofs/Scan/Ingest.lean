import Mathlib.Data.Finset.Image
import ImportAtlas.Proofs.Graph.Building
import ImportAtlas.Proofs.Resolver.Memory
import ImportAtlas.Scan

/-!
# What reading passages adds

Each specifier of a passage that leads anywhere is an edge. What the processed edges, the draft
and the memory of the resolver say together is kept by every step of reading, so the outcome is
the set of the edges of all passages: it depends neither on the order of the passages nor on their
repetition, nor on how they are dealt out to several calls.
-/

namespace ImportAtlas

/-- The modules that edges join. -/
def endsOf (edges : Finset (String × String)) : Finset String :=
  edges.image Prod.fst ∪ edges.image Prod.snd

/-- A module is joined by an edge from it or to it. -/
theorem mem_endsOf {edges : Finset (String × String)} {path : String} :
    path ∈ endsOf edges ↔ ∃ e ∈ edges, e.1 = path ∨ e.2 = path := by
  simp only [endsOf, Finset.mem_union, Finset.mem_image]
  constructor
  · rintro (⟨e, he, rfl⟩ | ⟨e, he, rfl⟩)
    · exact ⟨e, he, .inl rfl⟩
    · exact ⟨e, he, .inr rfl⟩
  · rintro ⟨e, he, rfl | rfl⟩
    · exact .inl ⟨e, he, rfl⟩
    · exact .inr ⟨e, he, rfl⟩

/-- Edges together join what each of them join. -/
theorem endsOf_union (left right : Finset (String × String)) :
    endsOf (left ∪ right) = endsOf left ∪ endsOf right := by
  ext path
  simp only [mem_endsOf, Finset.mem_union]
  constructor
  · rintro ⟨e, he | he, hpath⟩
    · exact .inl ⟨e, he, hpath⟩
    · exact .inr ⟨e, he, hpath⟩
  · rintro (⟨e, he, hpath⟩ | ⟨e, he, hpath⟩)
    · exact ⟨e, .inl he, hpath⟩
    · exact ⟨e, .inr he, hpath⟩

/-- The edge of a specifier, if it leads anywhere. -/
def specifierEdge (tree : FileTree) (r : Resolver) (importer : Path) (specifier : String) :
    Option (String × String) :=
  (r.resolve tree specifier importer).1.map fun target => (r.key importer, target)

/-- The edges of the specifiers that a passage holds. -/
def Passage.edges (tree : FileTree) (r : Resolver) (passage : Passage) : List (String × String) :=
  (extractImports passage.text).filterMap fun item =>
    specifierEdge tree r passage.path item.specifier

/-- The edges of passages. -/
def passageEdges (tree : FileTree) (r : Resolver) (passages : List Passage) :
    Finset (String × String) := (passages.flatMap (Passage.edges tree r)).toFinset

/-- An edge of passages leads from the file of one of them to where a specifier in it leads. -/
theorem mem_passageEdges {tree : FileTree} {r : Resolver} {passages : List Passage}
    {source target : String} :
    (source, target) ∈ passageEdges tree r passages ↔
      ∃ passage ∈ passages, ∃ item ∈ extractImports passage.text,
        r.key passage.path = source ∧
          (r.resolve tree item.specifier passage.path).1 = some target := by
  simp only [passageEdges, List.mem_toFinset, List.mem_flatMap, Passage.edges, List.mem_filterMap,
    specifierEdge, Option.map_eq_some_iff, Prod.mk.injEq]
  constructor
  · rintro ⟨passage, hpassage, item, hitem, t, ht, hsource, rfl⟩
    exact ⟨passage, hpassage, item, hitem, hsource, ht⟩
  · rintro ⟨passage, hpassage, item, hitem, hsource, ht⟩
    exact ⟨passage, hpassage, item, hitem, target, ht, hsource, rfl⟩

namespace Ingest

/-- What reading has come to: the resolver gives the answers it gave at first, the draft and the
processed edges agree on a set of edges, and `earlier` edges were there before the call. -/
structure Keeps (tree : FileTree) (r : Resolver) (earlier : ℕ) (i : Ingest)
    (nodes : Finset String) (edges : Finset (String × String)) : Prop where
  agrees : r.Agrees tree i.resolver
  holds : i.draft.Holds nodes edges
  mem_processed : ∀ e, e ∈ i.processed ↔ e ∈ edges
  count : earlier + i.added = edges.card

variable {tree : FileTree} {r : Resolver} {earlier : ℕ} {i : Ingest} {nodes : Finset String}
  {edges : Finset (String × String)}

/-- Nothing is read at first. -/
theorem Keeps.start (tree : FileTree) (r : Resolver) :
    Keeps tree r 0 { resolver := r } ∅ ∅ :=
  ⟨.refl tree r, .empty, by simp, rfl⟩

/-- Another call counts anew, from the edges that are there. -/
theorem Keeps.restart (h : Keeps tree r earlier i nodes edges) :
    Keeps tree r edges.card { i with added := 0 } nodes edges :=
  ⟨h.agrees, h.holds, h.mem_processed, rfl⟩

/-- Reading a specifier adds its edge and the modules that it joins. -/
theorem Keeps.addSpecifier (h : Keeps tree r earlier i nodes edges) (importer : Path)
    (specifier : String) :
    let new := (specifierEdge tree r importer specifier).toFinset
    Keeps tree r earlier (addSpecifier tree importer i specifier) (endsOf new ∪ nodes)
      (new ∪ edges) := by
  intro new
  have hresolve := h.agrees.resolve_eq specifier importer
  have hagrees := h.agrees.trans (Resolver.agrees_resolve tree i.resolver specifier importer)
  rw [Ingest.addSpecifier]
  cases hstep : i.resolver.resolve tree specifier importer with
  | mk found later =>
    rw [hstep] at hresolve hagrees
    cases found with
    | none =>
      have hnew : new = ∅ := by simp [new, specifierEdge, ← hresolve]
      rw [hnew]
      simpa [endsOf] using ⟨hagrees, h.holds, h.mem_processed, h.count⟩
    | some target =>
      have hnew : new = {(r.key importer, target)} := by simp [new, specifierEdge, ← hresolve]
      have hsource : later.key importer = r.key importer := hagrees.key_eq importer
      have hends : endsOf {(r.key importer, target)} ∪ nodes =
          insert target (insert (r.key importer) nodes) := by
        rw [endsOf, Finset.image_singleton, Finset.image_singleton, Finset.union_comm {_},
          Finset.union_assoc, Finset.insert_eq, Finset.insert_eq]
      rw [hnew, ← Finset.insert_eq, hends]
      simp only [hsource]
      by_cases hold : (r.key importer, target) ∈ edges
      · -- The edge is processed, and its ends are modules already.
        have hmem := h.holds.ends_mem _ hold
        rw [if_pos ((h.mem_processed _).mpr hold), Finset.insert_eq_of_mem hold,
          Finset.insert_eq_of_mem hmem.1, Finset.insert_eq_of_mem hmem.2]
        exact ⟨hagrees, h.holds, h.mem_processed, h.count⟩
      · rw [if_neg ((h.mem_processed _).not.mpr hold)]
        refine ⟨hagrees, h.holds.addEdge _ _, fun e => ?_, ?_⟩
        · rw [List.mem_cons, Finset.mem_insert, h.mem_processed]
        · rw [Finset.card_insert_of_notMem hold, ← h.count, Nat.add_assoc]

/-- Reading specifiers of a file one after the other adds their edges. -/
theorem Keeps.addSpecifiers (h : Keeps tree r earlier i nodes edges) (importer : Path)
    (specifiers : List String) :
    let new := (specifiers.filterMap (specifierEdge tree r importer)).toFinset
    Keeps tree r earlier (specifiers.foldl (Ingest.addSpecifier tree importer) i)
      (endsOf new ∪ nodes) (new ∪ edges) := by
  induction specifiers generalizing i nodes edges with
  | nil => simpa [endsOf] using h
  | cons specifier specifiers ih =>
    have hstep := ih (h.addSpecifier importer specifier)
    have hnew : ((specifier :: specifiers).filterMap (specifierEdge tree r importer)).toFinset =
        (specifiers.filterMap (specifierEdge tree r importer)).toFinset ∪
          (specifierEdge tree r importer specifier).toFinset := by
      cases hedge : specifierEdge tree r importer specifier with
      | none => simp [hedge]
      | some e =>
        rw [List.filterMap_cons_some hedge, List.toFinset_cons, Option.toFinset_some,
          Finset.insert_eq, Finset.union_comm]
    simp only [hnew, endsOf_union, Finset.union_assoc]
    exact hstep

/-- A passage whose constructs are all skipped has no specifiers, so passing over it loses
nothing. -/
theorem extractImports_of_allSkipped {text : List Char} (h : allSkipped text) :
    extractImports text = [] := by
  rw [allSkipped, Bool.and_eq_true, List.all_eq_true] at h
  rw [extractImports, List.filter_eq_nil_iff]
  intro item hitem
  simp [h.2 item hitem]

/-- Reading a passage adds its edges. -/
theorem Keeps.addPassage (h : Keeps tree r earlier i nodes edges) (passage : Passage) :
    let new := (passage.edges tree r).toFinset
    Keeps tree r earlier (addPassage tree i passage) (endsOf new ∪ nodes) (new ∪ edges) := by
  intro new
  rw [Ingest.addPassage]
  split
  · next hskipped =>
    have hnew : new = ∅ := by simp [new, Passage.edges, extractImports_of_allSkipped hskipped]
    rw [hnew]
    simpa [endsOf] using h
  · have hread := h.addSpecifiers passage.path
      ((extractImports passage.text).map ImportMatch.specifier)
    rw [List.filterMap_map] at hread
    exact hread

/-- Reading passages one after the other adds the edges of all. -/
theorem Keeps.addPassages (h : Keeps tree r earlier i nodes edges) (passages : List Passage) :
    let new := passageEdges tree r passages
    Keeps tree r earlier (addPassages tree i passages) (endsOf new ∪ nodes) (new ∪ edges) := by
  induction passages generalizing i nodes edges with
  | nil => simpa [passageEdges, endsOf, Ingest.addPassages] using h
  | cons passage passages ih =>
    have hstep := ih (h.addPassage passage)
    have hnew : passageEdges tree r (passage :: passages) =
        passageEdges tree r passages ∪ (passage.edges tree r).toFinset := by
      simp [passageEdges, List.toFinset_append, Finset.union_comm]
    simp only [hnew, endsOf_union, Finset.union_assoc]
    exact hstep

/-- Read several batches of passages, each in a call of its own. The numbers of edges that the
calls add come with the result. -/
def addBatches (tree : FileTree) : Ingest → List (List Passage) → List ℕ × Ingest
  | i, [] => ([], i)
  | i, batch :: rest =>
    let i := Ingest.addPassages tree { i with added := 0 } batch
    let (counts, last) := addBatches tree i rest
    (i.added :: counts, last)

/-- Several calls add the edges of all their passages, and count them once. -/
theorem Keeps.addBatches (h : Keeps tree r earlier i nodes edges) (batches : List (List Passage)) :
    let new := passageEdges tree r batches.flatten
    ∃ before, Keeps tree r before (addBatches tree i batches).2 (endsOf new ∪ nodes) (new ∪ edges) ∧
      edges.card + (addBatches tree i batches).1.sum = (new ∪ edges).card := by
  induction batches generalizing i nodes edges earlier with
  | nil => exact ⟨earlier, by simpa [passageEdges, endsOf, Ingest.addBatches] using h,
      by simp [passageEdges, Ingest.addBatches]⟩
  | cons batch batches ih =>
    have hcall := h.restart.addPassages batch
    obtain ⟨before, hlast, hcount⟩ := ih hcall
    have hnew : passageEdges tree r (batch :: batches).flatten =
        passageEdges tree r batches.flatten ∪ passageEdges tree r batch := by
      simp [passageEdges, List.toFinset_append, Finset.union_comm]
    simp only [hnew, endsOf_union, Finset.union_assoc]
    refine ⟨before, hlast, ?_⟩
    rw [← hcount, ← hcall.count, Ingest.addBatches, List.sum_cons, Nat.add_assoc]

/-- Read passages into an empty draft. -/
def ofPassages (tree : FileTree) (r : Resolver) (passages : List Passage) : Ingest :=
  addPassages tree { resolver := r } passages

/-- Reading passages into an empty draft keeps exactly their edges. -/
theorem keeps_ofPassages (tree : FileTree) (r : Resolver) (passages : List Passage) :
    Keeps tree r 0 (ofPassages tree r passages) (endsOf (passageEdges tree r passages))
      (passageEdges tree r passages) := by
  have h := (Keeps.start tree r).addPassages passages
  simp only [Finset.union_empty] at h
  exact h

/-- Passages read into an empty draft give the graph of their edges and of the modules that these
join, and the number of edges is counted. So do any passages that are the same but for order and
repetition, and so do several calls among which the passages are cut up, whose counts add up. -/
theorem ofPassages_represents (tree : FileTree) (r : Resolver) (passages : List Passage)
    (root generatedAt : String) :
    ((ofPassages tree r passages).draft.build root generatedAt).Represents
      (endsOf (passageEdges tree r passages)) (passageEdges tree r passages) ∧
    (ofPassages tree r passages).added = (passageEdges tree r passages).card ∧
    (∀ others, (∀ passage, passage ∈ others ↔ passage ∈ passages) →
      (ofPassages tree r others).draft.build root generatedAt =
        (ofPassages tree r passages).draft.build root generatedAt ∧
      (ofPassages tree r others).added = (ofPassages tree r passages).added) ∧
    ∀ batches, batches.flatten = passages →
      (addBatches tree { resolver := r } batches).2.draft.build root generatedAt =
        (ofPassages tree r passages).draft.build root generatedAt ∧
      (addBatches tree { resolver := r } batches).1.sum = (ofPassages tree r passages).added := by
  have hkeeps := keeps_ofPassages tree r passages
  have hgraph := hkeeps.holds.build root generatedAt
  have hadded : (ofPassages tree r passages).added = (passageEdges tree r passages).card := by
    simpa using hkeeps.count
  refine ⟨hgraph, hadded, ?_, ?_⟩
  · intro others hothers
    have hedges : passageEdges tree r others = passageEdges tree r passages := by
      ext ⟨source, target⟩
      simp only [mem_passageEdges, hothers]
    have hkeeps' := keeps_ofPassages tree r others
    rw [hedges] at hkeeps'
    refine ⟨(hkeeps'.holds.build root generatedAt).eq_of_facts hgraph rfl rfl, ?_⟩
    rw [hadded]
    simpa using hkeeps'.count
  · rintro batches rfl
    obtain ⟨before, hlast, hcount⟩ := (Keeps.start tree r).addBatches batches
    simp only [Finset.union_empty] at hlast hcount
    refine ⟨(hlast.holds.build root generatedAt).eq_of_facts hgraph rfl rfl, ?_⟩
    rw [hadded]
    simpa using hcount

/-- A passage read twice with another one between gives the graph of the two in the other order,
and two calls count its edges once. -/
theorem ofPassages_represents_reordered :
    let r := Resolver.new ⟨.root, ["p"]⟩ none
    let first : Passage := ⟨⟨.root, ["p", "a.ts"]⟩, "import './b'".toList⟩
    let second : Passage := ⟨⟨.root, ["p", "c.ts"]⟩, "export * from './a'".toList⟩
    (ofPassages .empty r [second, first]).draft.build "/p" "" =
        (ofPassages .empty r [first, second, first]).draft.build "/p" "" ∧
      (addBatches .empty { resolver := r } [[first], [second, first]]).1.sum =
        (ofPassages .empty r [first, second, first]).added := by
  intro r first second
  have hmem : ∀ passage, passage ∈ [second, first] ↔ passage ∈ [first, second, first] := by
    intro passage
    simp only [List.mem_cons, List.not_mem_nil, or_false]
    tauto
  obtain ⟨-, -, hothers, hbatches⟩ :=
    ofPassages_represents .empty r [first, second, first] "/p" ""
  exact ⟨(hothers _ hmem).1, (hbatches [[first], [second, first]] rfl).2⟩

end Ingest

end ImportAtlas
