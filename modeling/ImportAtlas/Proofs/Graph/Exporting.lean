import ImportAtlas.Graph.Export
import ImportAtlas.Proofs.Graph.Scoping
import ImportAtlas.Proofs.Json.Printing

/-!
# What an export tells

The text of a graph is read back as the object that was printed, whatever characters stand in the names
of its modules, and the object tells all that there is to the graph. So no two graphs have one text, in
whichever layouts and with whichever cycles they are printed.
-/

namespace ImportAtlas

open Json

section Parts

/-- A list of strings is read back. -/
theorem isExact_strings (items : List String) : IsExact (.strings items) :=
  .arr (List.forall_mem_map.mpr fun s _ => .str s)

/-- A list of strings tells its items. -/
theorem strings_injective : Function.Injective Json.strings := fun _ _ h =>
  List.map_injective_iff.mpr (fun _ _ => Json.str.inj) (Json.arr.inj h)

/-- The neighbours of a module are read back. -/
theorem Neighbours.isExact_toJson (n : Neighbours) : IsExact n.toJson := by
  refine .obj (by simp) ?_
  simp only [List.forall_mem_cons]
  exact ⟨isExact_strings _, isExact_strings _, nofun⟩

/-- The object of neighbours tells them. -/
theorem Neighbours.toJson_injective : Function.Injective Neighbours.toJson := by
  intro n n' h
  simp only [toJson, Json.obj.injEq, List.cons.injEq, Prod.mk.injEq, true_and, and_true] at h
  cases n
  cases n'
  rw [Neighbours.mk.injEq]
  exact ⟨strings_injective h.1, strings_injective h.2⟩

/-- The facts of a graph are read back. -/
theorem GraphFacts.isExact_toJson (f : GraphFacts) : IsExact f.toJson := by
  refine .obj (by simp) ?_
  simp only [List.forall_mem_cons]
  exact ⟨.str _, .int _, .int _, .str _, nofun⟩

/-- The object of facts tells them. -/
theorem GraphFacts.toJson_injective : Function.Injective GraphFacts.toJson := by
  intro f f' h
  cases f
  cases f'
  simpa [toJson] using h

end Parts

namespace ImportGraph

variable {g g' : ImportGraph} {cycles cycles' : Option (List (List String))}

/-- A graph with distinct paths is read back, with cycles if some are given. -/
theorem isExact_toJsonWith (hpaths : g.paths.Nodup) (cycles : Option (List (List String))) :
    IsExact (g.toJsonWith cycles) := by
  have hmodules : IsExact (.obj (g.modules.map fun m => (m.1, m.2.toJson))) := by
    refine .obj (by rwa [List.map_map]) (List.forall_mem_map.mpr fun m _ => m.2.isExact_toJson)
  have hfields : ∀ field ∈ g.jsonFields, IsExact field.2 := by
    simp only [jsonFields, List.forall_mem_cons]
    exact ⟨isExact_strings _, hmodules, g.facts.isExact_toJson, nofun⟩
  cases cycles with
  | none => exact .obj (by simp [jsonFields]) (by simpa using hfields)
  | some cs =>
    refine .obj (by simp [jsonFields]) (List.forall_mem_append.mpr ⟨hfields, ?_⟩)
    exact List.forall_mem_singleton.mpr (.arr (List.forall_mem_map.mpr fun c _ => isExact_strings c))

/-- The object of a graph tells the graph and the cycles. -/
theorem eq_of_toJsonWith (h : g'.toJsonWith cycles' = g.toJsonWith cycles) :
    g' = g ∧ cycles' = cycles := by
  obtain ⟨hfields, hentry⟩ := List.append_inj (Json.obj.inj h) rfl
  simp only [jsonFields, List.cons.injEq, Prod.mk.injEq, Json.obj.injEq, true_and, and_true] at hfields
  obtain ⟨-, hmodules, hfacts⟩ := hfields
  have hpair : Function.Injective fun m : String × Neighbours => (m.1, m.2.toJson) := fun m m' heq =>
    Prod.ext (Prod.mk.inj heq).1 (Neighbours.toJson_injective (Prod.mk.inj heq).2)
  refine ⟨?_, ?_⟩
  · obtain ⟨modules, facts⟩ := g
    obtain ⟨modules', facts'⟩ := g'
    rw [mk.injEq]
    exact ⟨List.map_injective_iff.mpr hpair hmodules, GraphFacts.toJson_injective hfacts⟩
  · cases cycles <;> cases cycles'
    · rfl
    · cases hentry
    · cases hentry
    · have hlists := Json.arr.inj (Prod.mk.inj (List.cons.inj hentry).1).2
      exact congrArg some (List.map_injective_iff.mpr strings_injective hlists)

/-- The text of a graph that was built, and perhaps scoped, is read back as its object, with an entry for
cycles exactly if some are given. No other such graph has this text, and no other cycles give it, in
whichever layout: the text tells the modules with their neighbours, hence the edges and the roots, and
all facts. -/
theorem read?_jsonText (h : g.Arises) (indent : Option ℤ) (cycles : Option (List (List String))) :
    read? (g.jsonText indent cycles).toList = some (match cycles with
      | none => g.toJson
      | some cs => .obj (g.jsonFields ++ [("cycles", .arr (cs.map .strings))])) ∧
    ∀ g' indent' cycles', g'.Arises → g'.jsonText indent' cycles' = g.jsonText indent cycles →
      g' = g ∧ cycles' = cycles := by
  have hback {g : ImportGraph} (h : g.Arises) (indent : Option ℤ)
      (cycles : Option (List (List String))) :
      read? (g.jsonText indent cycles).toList = some (g.toJsonWith cycles) := by
    obtain ⟨nodes, edges, hg⟩ := h.represents
    exact (isExact_toJsonWith (nodup_of_ascending id hg.paths_ascending) cycles).read?_print _
  refine ⟨?_, fun g' indent' cycles' h' htext => ?_⟩
  · rw [hback h]
    cases cycles with
    | none => rw [toJsonWith, Option.map_none, Option.toList_none, List.append_nil, toJson]
    | some cs => rfl
  · have hread := hback h' indent' cycles'
    rw [htext, hback h] at hread
    exact eq_of_toJsonWith (Option.some.inj hread).symm

/-- Names with a quote, a backslash, a control character and a character outside of ASCII, in a graph that
was scoped, and cycles beside it. The whole graph has another text. -/
theorem read?_jsonText_quoted :
    let whole := (GraphDraft.ofCalls [.edge "a\x22" "\\\x01é", .node "b"]).build "/" "now"
    let part := whole.scopedTo ["a\x22"]
    let text := part.jsonText (some 0) (some [["a\x22"]])
    whole.Arises ∧ part.Arises ∧
    read? text.toList = some (.obj [
      ("rootNodes", .strings ["a\x22"]),
      ("modules", .obj [
        ("\\\x01é", .obj [("dependencies", .strings []), ("dependents", .strings ["a\x22"])]),
        ("a\x22", .obj [("dependencies", .strings ["\\\x01é"]), ("dependents", .strings [])])]),
      ("metadata", .obj [("root", .str "/"), ("totalFiles", .int 2), ("totalDependencies", .int 1),
        ("generatedAt", .str "now")]),
      ("cycles", .arr [.strings ["a\x22"]])]) ∧
    ∀ indent cycles, whole.jsonText indent cycles ≠ text := by
  intro whole part text
  have hwhole : whole = ⟨[("\\\x01é", ⟨[], ["a\x22"]⟩), ("a\x22", ⟨["\\\x01é"], []⟩), ("b", ⟨[], []⟩)],
      "/", 3, 1, "now"⟩ :=
    GraphDraft.build_eq (by decide) (by decide +kernel) (by decide +kernel) (by decide +kernel) "/" "now"
  have hpart : part = ⟨[("\\\x01é", ⟨[], ["a\x22"]⟩), ("a\x22", ⟨["\\\x01é"], []⟩)], "/", 2, 1, "now"⟩ := by
    simp only [part, hwhole]
    decide +kernel
  have harises : whole.Arises := .build _ "/" "now"
  obtain ⟨hread, honly⟩ := read?_jsonText (harises.scopedTo ["a\x22"]) (some 0) (some [["a\x22"]])
  refine ⟨harises, harises.scopedTo _, hread.trans ?_, fun indent cycles htext => ?_⟩
  · change some (Json.obj (part.jsonFields ++ _)) = _
    rw [hpart]
    rfl
  · have heq : whole = part := (honly whole indent cycles harises htext).1
    rw [hwhole, hpart] at heq
    exact absurd heq (by decide +kernel)

end ImportGraph

end ImportAtlas
