import Mathlib.Data.List.TakeWhile
import ImportAtlas.Proofs.Text.Splitting
import ImportAtlas.Resolver

/-!
# One name for each file

The names of files and folders hold no slash, are not empty and are neither a dot nor two. A path
made of such names is given back by its text, and two paths below the one root with the same way
from a folder are equal. The key of a file in a graph therefore tells which file it is.
-/

namespace ImportAtlas

namespace Path

/-- A part of a path text that stays when the text is read. -/
def IsStep (name : String) : Prop := name ≠ "" ∧ name ≠ "." ∧ '/' ∉ name.toList

/-- A name that a file or a folder can have. -/
def IsName (name : String) : Prop := IsStep name ∧ name ≠ ".."

instance (name : String) : Decidable (IsStep name) :=
  inferInstanceAs (Decidable (name ≠ "" ∧ name ≠ "." ∧ '/' ∉ name.toList))

instance (name : String) : Decidable (IsName name) :=
  inferInstanceAs (Decidable (IsStep name ∧ name ≠ ".."))

/-- A path from the one root through names. -/
structure IsPlace (p : Path) : Prop where
  anchor_eq : p.anchor = .root
  names_isName : ∀ name ∈ p.names, IsName name

/-- A path that is read is made of steps. -/
theorem isStep_of_mem_ofString {text name : String} (h : name ∈ (ofString text).names) :
    IsStep name := by
  obtain ⟨hmem, hfilter⟩ := List.mem_filter.mp h
  obtain ⟨piece, hpiece, rfl⟩ := List.mem_map.mp hmem
  simp only [Bool.and_eq_true, bne_iff_ne, ne_eq] at hfilter
  refine ⟨hfilter.1, hfilter.2, ?_⟩
  rw [String.toList_ofList]
  exact Text.notMem_of_mem_splitAt hpiece

/-- A text that begins with no slash is read as a relative path. -/
theorem anchorOf_of_head_ne {text : List Char} (h : text.head? ≠ some '/') :
    anchorOf text = .relative := by
  cases text with
  | nil => rfl
  | cons c rest =>
    have hc : (c == '/') = false := beq_false_of_ne fun heq => h (by rw [heq, List.head?_cons])
    rw [anchorOf, List.takeWhile_cons, hc]
    rfl

/-- The text of steps begins with no slash. -/
theorem head?_intercalate_ne {names : List String} (h : ∀ name ∈ names, IsStep name) :
    (['/'].intercalate (names.map String.toList)).head? ≠ some '/' := by
  cases names with
  | nil => simp [List.intercalate]
  | cons name names =>
    obtain ⟨hne, -, hslash⟩ := h name List.mem_cons_self
    cases hchars : name.toList with
    | nil => exact absurd (String.toList_eq_nil_iff.mp hchars) hne
    | cons c chars =>
      rw [hchars, List.mem_cons, not_or] at hslash
      cases names with
      | nil => simpa [List.intercalate_singleton, hchars] using Ne.symm hslash.1
      | cons name' names =>
        rw [List.map_cons, List.map_cons, List.intercalate_cons_cons, hchars]
        simpa using Ne.symm hslash.1

/-- A relative path made of steps is given back by its text. -/
theorem ofString_toString {names : List String} (h : ∀ name ∈ names, IsStep name) :
    ofString (toString ⟨.relative, names⟩) = ⟨.relative, names⟩ := by
  by_cases hempty : names = []
  · subst hempty
    rfl
  · have htext : (toString ⟨.relative, names⟩).toList =
        ['/'].intercalate (names.map String.toList) := by
      rw [toString, if_neg (by simp [hempty]), anchorText, String.empty_append,
        String.toList_intercalate]
      rfl
    rw [ofString, htext, anchorOf_of_head_ne (head?_intercalate_ne h),
      Text.splitAt_intercalate (by simpa using hempty), List.map_map]
    · congr 1
      have hmap : names.map (String.ofList ∘ String.toList) = names := by
        simp [Function.comp_def]
      rw [hmap, List.filter_eq_self]
      intro name hname
      simpa using ⟨(h name hname).1, (h name hname).2.1⟩
    · intro piece hpiece
      obtain ⟨name, hname, rfl⟩ := List.mem_map.mp hpiece
      exact (h name hname).2.2

/-- Two lists have at most the whole of the first in common. -/
theorem commonLength_le (left right : List String) : commonLength left right ≤ left.length := by
  fun_induction commonLength left right with
  | case1 a as bs ih => simpa using ih
  | case2 => simp
  | case3 => simp

/-- What two lists begin with in common is the same in both. -/
theorem take_commonLength (left right : List String) :
    right.take (commonLength left right) = left.take (commonLength left right) := by
  fun_induction commonLength left right with
  | case1 a as bs ih => simp [ih]
  | case2 => simp
  | case3 => simp

/-- A way up and down again tells how far it goes up, if it does not come down through double
dots. -/
theorem replicate_append_inj {m n : ℕ} {left right : List String} (hleft : ".." ∉ left)
    (hright : ".." ∉ right)
    (h : List.replicate m ".." ++ left = List.replicate n ".." ++ right) :
    m = n ∧ left = right := by
  induction m generalizing n with
  | zero =>
    cases n with
    | zero => exact ⟨rfl, h⟩
    | succ n =>
      rw [List.replicate_zero, List.nil_append] at h
      exact absurd (h ▸ List.mem_append_left _ (by simp)) hleft
  | succ m ih =>
    cases n with
    | zero =>
      rw [List.replicate_zero, List.nil_append] at h
      exact absurd (h ▸ List.mem_append_left _ (by simp)) hright
    | succ n =>
      obtain ⟨rfl, hrest⟩ := ih (List.cons.inj h).2
      exact ⟨rfl, hrest⟩

/-- The way from a folder tells where it leads. -/
theorem names_eq_of_wayFrom_eq {folder p q : Path} (hp : ".." ∉ p.names) (hq : ".." ∉ q.names)
    (h : folder.wayFrom p = folder.wayFrom q) : p.names = q.names := by
  have hp' : ".." ∉ p.names.drop (commonLength folder.names p.names) :=
    fun hmem => hp (List.mem_of_mem_drop hmem)
  have hq' : ".." ∉ q.names.drop (commonLength folder.names q.names) :=
    fun hmem => hq (List.mem_of_mem_drop hmem)
  obtain ⟨hup, hdown⟩ := replicate_append_inj hp' hq' (congrArg names h)
  have hlength : commonLength folder.names p.names = commonLength folder.names q.names := by
    have := commonLength_le folder.names p.names
    have := commonLength_le folder.names q.names
    omega
  rw [← List.take_append_drop (commonLength folder.names p.names) p.names, take_commonLength, hdown,
    hlength, ← take_commonLength, List.take_append_drop]

/-- Names without double dots are kept by making a path normal. -/
theorem foldl_normalStep (absolute : Bool) {names : List String} (h : ".." ∉ names)
    (before : List String) : names.foldl (normalStep absolute) before = before ++ names := by
  induction names generalizing before with
  | nil => simp
  | cons name names ih =>
    rw [List.mem_cons, not_or] at h
    rw [List.foldl_cons, normalStep, if_pos (by simpa using Ne.symm h.1), ih h.2]
    simp

/-- From the root on, no double dots are left. -/
theorem dotdot_notMem_foldl_normalStep (names : List String) {before : List String}
    (hbefore : ".." ∉ before) : ".." ∉ names.foldl (normalStep true) before := by
  induction names generalizing before with
  | nil => exact hbefore
  | cons step names ih =>
    refine ih ?_
    rw [normalStep]
    split
    · next hstep =>
      rw [List.mem_append, List.mem_singleton, not_or]
      exact ⟨hbefore, Ne.symm (bne_iff_ne.mp hstep)⟩
    · split
      · simp
      · next last hlast =>
        have hne : last ≠ ".." := fun heq => hbefore (heq ▸ List.mem_of_getLast? hlast)
        rw [if_neg hne]
        exact fun hmem => hbefore ((List.dropLast_sublist _).subset hmem)

/-- Steps lead through names alone, from the root on. -/
theorem isName_of_mem_foldl_normalStep {names before : List String}
    (hnames : ∀ name ∈ names, IsStep name) (hbefore : ∀ name ∈ before, IsName name) :
    ∀ name ∈ names.foldl (normalStep true) before, IsName name := by
  induction names generalizing before with
  | nil => exact hbefore
  | cons step names ih =>
    refine ih (fun name hname => hnames name (List.mem_cons_of_mem _ hname)) fun name hname => ?_
    rw [normalStep] at hname
    split at hname
    · next hstep =>
      rcases List.mem_append.mp hname with hname | hname
      · exact hbefore name hname
      · rw [List.mem_singleton.mp hname]
        exact ⟨hnames step List.mem_cons_self, by simpa using hstep⟩
    · split at hname
      · simp at hname
      · next last hlast =>
        have hlast_ne : last ≠ ".." := (hbefore last (List.mem_of_getLast? hlast)).2
        rw [if_neg hlast_ne] at hname
        exact hbefore name ((List.dropLast_sublist _).subset hname)

/-- An absolute path made of steps leads to a place. -/
theorem isPlace_resolved {p : Path} (h : ∀ name ∈ p.names, IsStep name) : IsPlace p.resolved :=
  ⟨rfl, isName_of_mem_foldl_normalStep h (by simp)⟩

namespace IsPlace

variable {p q : Path}

/-- The names of a place are no double dots. -/
theorem dotdot_notMem (h : p.IsPlace) : ".." ∉ p.names :=
  fun hmem => (h.names_isName ".." hmem).2 rfl

/-- A place is an absolute path. -/
theorem isAbsolute (h : p.IsPlace) : p.isAbsolute := by
  rw [Path.isAbsolute, h.anchor_eq]
  rfl

/-- A place is normal. -/
theorem normal_eq (h : p.IsPlace) : p.normal = p := by
  rw [normal, foldl_normalStep _ h.dotdot_notMem, List.nil_append]

/-- A place is where it leads. -/
theorem resolved_eq (h : p.IsPlace) : p.resolved = p := by
  rw [resolved, normal, foldl_normalStep _ h.dotdot_notMem, List.nil_append, ← h.anchor_eq]

/-- A place is the same from everywhere. -/
theorem join_eq (h : p.IsPlace) (folder : Path) : folder.join p = p := by
  rw [join, if_pos h.isAbsolute]

end IsPlace

/-- The way to where names lead is made of steps. -/
theorem isStep_of_mem_wayFrom (folder : Path) {p : Path} (hp : ∀ name ∈ p.names, IsName name) :
    ∀ name ∈ (folder.wayFrom p).names, IsStep name := by
  intro name hname
  rcases List.mem_append.mp hname with hname | hname
  · rw [List.eq_of_mem_replicate hname]
    decide
  · exact (hp name (List.mem_of_mem_drop hname)).1

/-- The text of the way from a folder tells where it leads. -/
theorem names_eq_of_toString_wayFrom_eq {folder p q : Path} (hp : ∀ name ∈ p.names, IsName name)
    (hq : ∀ name ∈ q.names, IsName name)
    (h : (folder.wayFrom p).toString = (folder.wayFrom q).toString) : p.names = q.names := by
  have hway : folder.wayFrom p = folder.wayFrom q :=
    calc folder.wayFrom p
      _ = ofString (folder.wayFrom p).toString :=
        (ofString_toString (isStep_of_mem_wayFrom folder hp)).symm
      _ = ofString (folder.wayFrom q).toString := by rw [h]
      _ = folder.wayFrom q := ofString_toString (isStep_of_mem_wayFrom folder hq)
  exact names_eq_of_wayFrom_eq (fun hmem => (hp ".." hmem).2 rfl) (fun hmem => (hq ".." hmem).2 rfl)
    hway

/-- What names an entry is made of steps, if its folder and the path in it are. -/
theorem isStep_join {folder p : Path} (hfolder : ∀ name ∈ folder.names, IsStep name)
    (hp : ∀ name ∈ p.names, IsStep name) : ∀ name ∈ (folder.join p).names, IsStep name := by
  intro name hname
  rw [join] at hname
  split at hname
  · exact hp name hname
  · exact (List.mem_append.mp hname).elim (hfolder name) (hp name)

end Path

/-- The key of a file in a graph tells which file it is. -/
theorem Resolver.keyIn_injective {root p q : Path} (hp : p.IsPlace) (hq : q.IsPlace)
    (h : keyIn root p = keyIn root q) : p = q := by
  rw [keyIn, keyIn, hp.join_eq, hq.join_eq, hp.normal_eq, hq.normal_eq] at h
  have hnames := Path.names_eq_of_toString_wayFrom_eq hp.names_isName hq.names_isName h
  obtain ⟨anchor, names⟩ := p
  obtain ⟨anchor', names'⟩ := q
  exact Path.mk.injEq .. ▸ ⟨hp.anchor_eq.trans hq.anchor_eq.symm, hnames⟩

end ImportAtlas
