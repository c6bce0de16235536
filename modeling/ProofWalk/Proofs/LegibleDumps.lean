import ProofWalk.Graph.Dump
import ProofWalk.Proofs.RegularGraphs
import ProofWalk.Proofs.SeparatedTexts
import Std.Data.String.ToNat
/-!
# Proofs.LegibleDumps — a graph can be told from its dump

A dump is a line of fields with tabs between them (`dumpFields`): two counts, the names of features with colons
between them, and a field for each edge, in which the features stand by number with commas between them.  If no name
holds a tab or a colon, the fields can be told from the line, and all that an edge has from its field, but for the
names of its features.  Whether there is any name can be told from the edges, and then the names can be told from
their field (`dumpFields_inj`).

The last step is needed because a line of no names and a line of one empty name have the same field of names.
-/
namespace ProofWalk

/-! ## Texts of numbers

A number is written with digits, signs, a point and letters, none of which is a separator. -/

namespace Decimal

def isNumeric (c : Char) : Bool := c.isAlphanum || c == '.' || c == '-'

theorem isNumeric_digitsText {c : Char} {n : Nat} (h : c ∈ digitsText n) : isNumeric c = true := by
  have hdigit : c.isDigit = true := Nat.isDigit_of_mem_toDigits (by decide) (by decide) h
  simp [isNumeric, Char.isAlphanum, hdigit]

theorem isNumeric_positional (d : Decadic) : ∀ c ∈ d.positional.toList, isNumeric c = true := by
  have hzero : isNumeric '0' = true := by decide
  have hpoint : isNumeric '.' = true := by decide
  have hpadded (k : Nat) : ∀ c ∈ List.replicate k '0' ++ digitsText d.digits, isNumeric c = true := by
    intro c hc
    rcases List.mem_append.1 hc with hc | hc
    · rw [List.eq_of_mem_replicate hc]
      exact hzero
    · exact isNumeric_digitsText hc
  intro c hc
  unfold Decadic.positional at hc
  dsimp only at hc
  split at hc
  · rw [String.toList_ofList] at hc
    split at hc
    · exact isNumeric_digitsText hc
    · rcases List.mem_append.1 hc with hc | hc
      · exact isNumeric_digitsText hc
      · rw [List.eq_of_mem_replicate hc]
        exact hzero
  · rw [String.toList_ofList] at hc
    rcases List.mem_append.1 hc with hc | hc
    · exact hpadded _ c (List.mem_of_mem_take hc)
    · rcases List.mem_cons.1 hc with rfl | hc
      · exact hpoint
      · exact hpadded _ c (List.mem_of_mem_drop hc)

theorem isNumeric_render (x : Float) : ∀ c ∈ (plainText.render x).toList, isNumeric c = true := by
  intro c hc
  unfold Layout.render at hc
  split at hc
  · exact List.all_eq_true.1 (show "NaN".toList.all isNumeric = true from rfl) c hc
  · split at hc
    · split at hc
      · exact List.all_eq_true.1 (show "-inf".toList.all isNumeric = true from rfl) c hc
      · exact List.all_eq_true.1 (show "inf".toList.all isNumeric = true from rfl) c hc
    · simp only [plainText, if_true, Bool.false_eq_true, if_false] at hc
      rw [String.toList_append] at hc
      rcases List.mem_append.1 hc with hc | hc
      · split at hc
        · exact List.all_eq_true.1 (show "-".toList.all isNumeric = true from rfl) c hc
        · cases hc
      · exact isNumeric_positional _ c hc

theorem lacks_written {c : Char} (hc : isNumeric c = false) (x : Float) : Lacks c (Written.text x) := fun h => by
  rw [isNumeric_render x c h] at hc
  cases hc

end Decimal

namespace ProofGraph

/-! ## The fields of a dump

The fields stand on one line, with tabs between them; each kept edge is a field of its own. -/

section

variable {K : Type} [Written K]

def featureField (names : List String) (f : String × K) : String :=
  toString (Symbols.number (.ofList names) f.1) ++ ("@" ++ Written.text f.2)

def edgeField (names : List String) (e : Nat × Edge K) : String :=
  toString e.1 ++
    ("->" ++ (toString e.2.child ++ (":" ++ Text.join "," (e.2.features.toList.map (featureField names)))))

/-- **The fields of a dump.** -/
def dumpFields (size : Nat) (edges : List (Nat × Edge K)) : List String :=
  toString size :: toString edges.length :: Text.join ":" (usedFeatures edges) ::
    edges.map (edgeField (usedFeatures edges))

theorem dumpEdge_eq (names : List String) (e : Nat × Edge K) :
    dumpEdge (.ofList names) e = "\t" ++ edgeField names e := by
  have hfeatures : (fun f : String × K => toString (((Interned.ofList names : Symbols).find? f.1).getD 0) ++
      "@" ++ Written.text f.2) = featureField names := by
    funext f
    rw [featureField, String.append_assoc]
    rfl
  unfold dumpEdge
  rw [hfeatures]
  simp only [edgeField, toString, String.append_assoc]

end

/-! ## Taking a dump

Asking for the edges of the states that have been expanded expands nothing, so a dump leaves the graph as it is. -/

section

variable {K : Type}

def keptAt (s : Store (ProofGraph K) K) (id : Nat) : List (Edge K) :=
  match s.graph with
  | .state g => (g.edges.get? id).getD []
  | .cachingId g => ((g.rows.get? id).getD []).map fun e =>
    ⟨e.child, .ofList (IdGraph.featureNames s.features e.features)⟩

/-- **All edges that a graph keeps**, by state. -/
def keptEdges (s : Store (ProofGraph K) K) : List (Nat × Edge K) :=
  (List.range s.graph.size).flatMap fun id => (keptAt s id).map (id, ·)

variable [Scalar K]

theorem edgesIfExpanded_eq (id : Nat) (s : Store (ProofGraph K) K) :
    edgesIfExpanded id s = (.ok (keptAt s id), s) := by
  have hrun : edgesIfExpanded id s = (if s.graph.isExpanded id then outlinks id else pure []) s := rfl
  rw [hrun]
  obtain ⟨g | g, features, counts⟩ := s
  · cases hedges : g.edges.get? id with
    | none =>
      simp only [isExpanded, keptAt, hedges, Option.isSome_none, Bool.false_eq_true, if_false, Option.getD_none]
      rfl
    | some here =>
      have hout := StateGraph.outlinks_of_edges (s := ⟨g, features, counts⟩) hedges
      simp only [isExpanded, keptAt, hedges, Option.isSome_some, if_true, Option.getD_some]
      show ((StateGraph.outlinks id ⟨g, features, counts⟩).1,
        ofState (StateGraph.outlinks id ⟨g, features, counts⟩).2) = _
      rw [hout]
      rfl
  · cases hrow : g.rows.get? id with
    | none =>
      simp only [isExpanded, keptAt, hrow, Option.isSome_none, Bool.false_eq_true, if_false, Option.getD_none]
      rfl
    | some here =>
      have hout : IdGraph.outlinks id ⟨g, features, counts⟩ = _ :=
        bind_ok (IdGraph.row_of_rows (s := ⟨g, features, counts⟩) hrow)
      simp only [isExpanded, keptAt, hrow, Option.isSome_some, if_true, Option.getD_some]
      show ((IdGraph.outlinks id ⟨g, features, counts⟩).1, ofId (IdGraph.outlinks id ⟨g, features, counts⟩).2) = _
      rw [hout]
      rfl

theorem expandedEdges_eq (ids : List Nat) (s : Store (ProofGraph K) K) :
    expandedEdges ids s = (.ok (ids.flatMap fun id => (keptAt s id).map (id, ·)), s) := by
  induction ids with
  | nil => rfl
  | cons id rest ih =>
    unfold expandedEdges
    rw [bind_ok (edgesIfExpanded_eq id s), bind_ok ih]
    rfl

theorem allEdges_eq (s : Store (ProofGraph K) K) : allEdges s = (.ok (keptEdges s), s) := expandedEdges_eq _ s

variable [Written K]

/-- **A dump expands nothing**, and it is its fields with tabs between them. -/
theorem dump_eq (s : Store (ProofGraph K) K) :
    dump s = (.ok (Text.join "\t" (dumpFields s.graph.size (keptEdges s))), s) := by
  have hrun : dump s =
      (.ok (s!"{s.graph.size}\t{(keptEdges s).length}\t" ++ Text.join ":" (usedFeatures (keptEdges s)) ++
      String.join ((keptEdges s).map (dumpEdge (.ofList (usedFeatures (keptEdges s)))))), s) := by
    unfold dump
    rw [bind_ok (allEdges_eq s)]
    rfl
  have hedges : dumpEdge (K := K) (.ofList (usedFeatures (keptEdges s))) = fun e =>
      "\t" ++ edgeField (usedFeatures (keptEdges s)) e :=
    funext fun e => dumpEdge_eq _ e
  rw [hrun, hedges]
  simp only [dumpFields, Text.join, Text.joinOnto_eq, Text.joinOnto, List.map_map, Function.comp_def, toString,
    String.append_assoc]

end

/-! ## Names in use

Names stand in a dump in ascending order and each once, so that a number tells a name. -/

section

variable {K : Type} {edges : List (Nat × Edge K)} {name : String}

theorem mem_foldl_insert (names : List String) (m : SortedMap String Unit) :
    name ∈ names.foldl (fun m name => m.insert name ()) m ↔ name ∈ m ∨ name ∈ names := by
  induction names generalizing m with
  | nil => simp
  | cons first rest ih =>
    rw [List.foldl_cons, ih, Std.ExtTreeMap.mem_insert, List.mem_cons, Std.LawfulEqCmp.compare_eq_iff_eq]
    grind

theorem mem_usedFeatures : name ∈ usedFeatures edges ↔ ∃ e ∈ edges, name ∈ e.2.features := by
  unfold usedFeatures
  rw [Std.ExtTreeMap.mem_keys, mem_foldl_insert]
  simp [Std.ExtTreeMap.mem_keys]

theorem nodup_usedFeatures (edges : List (Nat × Edge K)) : (usedFeatures edges).Nodup := Std.ExtTreeMap.nodup_keys

theorem usedFeatures_eq_nil_iff : usedFeatures edges = [] ↔ ∀ e ∈ edges, e.2.features.toList = [] := by
  rw [List.eq_nil_iff_forall_not_mem]
  constructor
  · intro h e he
    refine List.eq_nil_iff_forall_not_mem.2 fun f hf => h f.1 (mem_usedFeatures.2 ⟨e, he, ?_⟩)
    rw [Std.ExtTreeMap.mem_iff_isSome_getElem?, Std.ExtTreeMap.mem_toList_iff_getElem?_eq_some.1 hf]
    rfl
  · intro h name hname
    obtain ⟨e, he, hmem⟩ := mem_usedFeatures.1 hname
    rw [Std.ExtTreeMap.mem_iff_isSome_getElem?, Option.isSome_iff_exists] at hmem
    obtain ⟨x, hx⟩ := hmem
    have hnone := h e he
    exact List.ne_nil_of_mem (Std.ExtTreeMap.mem_toList_iff_getElem?_eq_some.2 hx) hnone

theorem number_inj {names : List String} (hnodup : names.Nodup) {name' : String}
    (h : name ∈ names) (h' : name' ∈ names)
    (heq : Symbols.number (.ofList names) name = Symbols.number (.ofList names) name') : name = name' := by
  have hget {n : String} (hn : n ∈ names) : (Interned.ofList names : Symbols).get?
      (Symbols.number (.ofList names) n) = some n := by
    obtain ⟨i, hi⟩ := List.mem_iff_getElem?.1 hn
    have hitem : (Interned.ofList names : Symbols).get? i = some n := by
      rw [Interned.get?_ofList (by simpa using hnodup), hi]
    have hfind : (Interned.ofList names : Symbols).find? n = some i := Interned.find?_eq_some_iff.2 ⟨n, hitem, rfl⟩
    rw [Symbols.number, hfind]
    exact hitem
  exact Option.some.inj ((hget h).symm.trans (heq ▸ hget h'))

end

/-! ## Reading a dump

The text is taken apart from the outside to the inside: the line into fields, a field into its parts, and a feature
into the number of its name and the text of its value. -/

/-- **Edges whose features can be written in a dump**: no name has a separator in it. -/
def Legible {K : Type} (edges : List (Nat × Edge K)) : Prop :=
  ∀ e ∈ edges, ∀ name ∈ e.2.features, Lacks ':' name ∧ Lacks '\t' name

def Bears {K : Type} (edges : List (Nat × Edge K)) (x : K) :
    Prop := ∃ e ∈ edges, ∃ name : String, e.2.features[name]? = some x

section

variable {names names' : List String} {edges edges' : List (Nat × Edge Float)} {e e' : Nat × Edge Float}

theorem lacks_featureField {c : Char} (hc : Decimal.isNumeric c = false) (hat : c ≠ '@') (f : String × Float) :
    Lacks c (featureField names f) := by
  have hdigit : c.isDigit = false := by
    unfold Decimal.isNumeric Char.isAlphanum at hc
    grind
  have hmark : Lacks c "@" := fun h => hat (List.mem_singleton.1 h)
  exact (Lacks.number hdigit _).append (hmark.append (Decimal.lacks_written hc f.2))

theorem featureField_ne_empty (f : String × Float) : featureField names f ≠ "" := by
  intro h
  have hlist := congrArg String.toList h
  simp only [featureField, String.toList_append] at hlist
  exact absurd (List.append_eq_nil_iff.1 (List.append_eq_nil_iff.1 hlist).2).1 (by decide)

/-- **The field of an edge tells its states, and the fields of its features.** -/
theorem edgeField_inj (h : edgeField names e = edgeField names' e') : e.1 = e'.1 ∧ e.2.child = e'.2.child ∧
    e.2.features.toList.map (featureField names) = e'.2.features.toList.map (featureField names') := by
  have hlacks (names : List String) (e : Nat × Edge Float) :
      ∀ t ∈ e.2.features.toList.map (featureField names), Lacks ',' t :=
    List.forall_mem_map.2 fun f _ => lacks_featureField (by decide) (by decide) f
  have hfilled (names : List String) (e : Nat × Edge Float) :
      "" ∉ e.2.features.toList.map (featureField names) := fun h => by
    obtain ⟨f, -, hf⟩ := List.mem_map.1 h
    exact featureField_ne_empty f hf
  obtain ⟨hsource, h⟩ := Lacks.append_inj (c := '-') (.number (by decide) _) (.number (by decide) _) rfl h
  obtain ⟨hchild, h⟩ := Lacks.append_inj (c := ':') (.number (by decide) _) (.number (by decide) _) rfl h
  exact ⟨Nat.repr_inj.1 hsource, Nat.repr_inj.1 hchild,
    Text.join_inj_of_nonempty rfl (hlacks names e) (hlacks names' e') (hfilled names e) (hfilled names' e') h⟩

theorem lacks_tab_dumpFields (h : Legible edges) (size : Nat) : ∀ t ∈ dumpFields size edges, Lacks '\t' t := by
  have hnames : ∀ name ∈ usedFeatures edges, Lacks '\t' name := fun name hname => by
    obtain ⟨e, he, hmem⟩ := mem_usedFeatures.1 hname
    exact (h e he name hmem).2
  have hedge (e : Nat × Edge Float) : Lacks '\t' (edgeField (usedFeatures edges) e) := by
    have hfeatures : Lacks '\t' (Text.join "," (e.2.features.toList.map (featureField (usedFeatures edges)))) :=
      .join (by decide) (List.forall_mem_map.2 fun f _ => lacks_featureField (by decide) (by decide) f)
    have harrow : Lacks '\t' "->" := by decide
    have hcolon : Lacks '\t' ":" := by decide
    exact (Lacks.number (by decide) _).append
      (harrow.append ((Lacks.number (by decide) _).append (hcolon.append hfeatures)))
  simp only [dumpFields, List.forall_mem_cons]
  exact ⟨.number (by decide) _, .number (by decide) _, .join (by decide) hnames,
    List.forall_mem_map.2 fun e _ => hedge e⟩

/-- **Whether there are names at all can be told from the edges**, so the names can be told from their field. -/
theorem usedFeatures_inj (hl : Legible edges) (hl' : Legible edges')
    (hcounts : List.Forall₂ (fun e e' => e.2.features.toList.length = e'.2.features.toList.length) edges edges')
    (h : Text.join ":" (usedFeatures edges) = Text.join ":" (usedFeatures edges')) :
    usedFeatures edges = usedFeatures edges' := by
  have hcolon {edges : List (Nat × Edge Float)} (hl : Legible edges) :
      ∀ name ∈ usedFeatures edges, Lacks ':' name := fun name hname => by
    obtain ⟨e, he, hmem⟩ := mem_usedFeatures.1 hname
    exact (hl e he name hmem).1
  have hnone : usedFeatures edges = [] ↔ usedFeatures edges' = [] := by
    rw [usedFeatures_eq_nil_iff, usedFeatures_eq_nil_iff]
    exact forall_mem_iff_of_forall₂
      (hcounts.imp fun e e' he => by rw [← List.length_eq_zero_iff, he, List.length_eq_zero_iff])
  by_cases hempty : usedFeatures edges = []
  · rw [hempty, hnone.1 hempty]
  · exact Text.join_inj rfl (hcolon hl) (hcolon hl') hempty (hnone.not.1 hempty) h

theorem features_inj {dict dict' : Features Float} (hnodup : names.Nodup) (hnames : ∀ name ∈ dict, name ∈ names)
    (hnames' : ∀ name ∈ dict', name ∈ names)
    (hvalues : ∀ (name name' : String) (x x' : Float), dict[name]? = some x → dict'[name']? = some x' →
      Written.text x = Written.text x' → x = x')
    (h : dict.toList.map (featureField names) = dict'.toList.map (featureField names)) : dict = dict' := by
  have hvalue {dict : Features Float} {f : String × Float} (hf : f ∈ dict.toList) : dict[f.1]? = some f.2 :=
    Std.ExtTreeMap.mem_toList_iff_getElem?_eq_some.1 hf
  have hmem {dict : Features Float} {f : String × Float} (hf : f ∈ dict.toList) : f.1 ∈ dict := by
    rw [Std.ExtTreeMap.mem_iff_isSome_getElem?, hvalue hf]
    rfl
  refine Std.ExtTreeMap.ext_toList (.of_eq (eq_of_map_eq (fun f hf f' hf' heq => ?_) h))
  obtain ⟨hnumber, htext⟩ := Lacks.append_inj (c := '@') (.number (by decide) _) (.number (by decide) _) rfl heq
  exact Prod.ext (number_inj hnodup (hnames _ (hmem hf)) (hnames' _ (hmem hf')) (Nat.repr_inj.1 hnumber))
    (hvalues _ _ _ _ (hvalue hf) (hvalue hf') htext)

/-- **The fields of a dump tell the number of states and the edges.** -/
theorem dumpFields_inj {size size' : Nat} (hl : Legible edges) (hl' : Legible edges')
    (hvalues : ∀ x x', Bears edges x → Bears edges' x' → Written.text x = Written.text x' → x = x')
    (h : Text.join "\t" (dumpFields size edges) = Text.join "\t" (dumpFields size' edges')) :
    size = size' ∧ edges = edges' := by
  have hfields : dumpFields size edges = dumpFields size' edges' :=
    Text.join_inj rfl (lacks_tab_dumpFields hl size) (lacks_tab_dumpFields hl' size')
      (by simp [dumpFields]) (by simp [dumpFields]) h
  simp only [dumpFields, List.cons.injEq] at hfields
  obtain ⟨hsize, -, hjoined, hedges⟩ := hfields
  have hcounts : List.Forall₂ (fun e e' : Nat × Edge Float => e.2.features.toList.length =
      e'.2.features.toList.length) edges edges' := by
    rw [← List.forall₂_eq_eq_eq, List.forall₂_map_left_iff, List.forall₂_map_right_iff] at hedges
    exact hedges.imp fun e e' he => by simpa using congrArg List.length (edgeField_inj he).2.2
  have hnames : usedFeatures edges = usedFeatures edges' := usedFeatures_inj hl hl' hcounts hjoined
  rw [← hnames] at hedges
  refine ⟨Nat.repr_inj.1 hsize, eq_of_map_eq (fun e he e' he' heq => ?_) hedges⟩
  obtain ⟨source, child, dict⟩ := e
  obtain ⟨source', child', dict'⟩ := e'
  obtain ⟨rfl, rfl, hfeatures⟩ := edgeField_inj heq
  have hused : ∀ name ∈ dict, name ∈ usedFeatures edges := fun name hname => mem_usedFeatures.2 ⟨_, he, hname⟩
  have hused' : ∀ name ∈ dict', name ∈ usedFeatures edges :=
    fun name hname => hnames ▸ mem_usedFeatures.2 ⟨_, he', hname⟩
  rw [features_inj (nodup_usedFeatures edges) hused hused'
    (fun name name' x x' hx hx' => hvalues x x' ⟨_, he, name, hx⟩ ⟨_, he', name', hx'⟩) hfeatures]

/-- **The dump determines the graph.**  Taking it expands nothing and changes nothing, and it has a text for every
graph.  If two graphs have the same dump, they have as many states and the same edges, where no name of a feature
has a separator in it and different values have different texts. -/
theorem dump_determines_graph (s s' : Store (ProofGraph Float) Float) :
    (allEdges s = (.ok (keptEdges s), s) ∧ ∃ text, dump s = (.ok text, s)) ∧
    (Legible (keptEdges s) → Legible (keptEdges s') →
      (∀ x x', Bears (keptEdges s) x → Bears (keptEdges s') x' → Written.text x = Written.text x' → x = x') →
      (dump s).1 = (dump s').1 → s.graph.size = s'.graph.size ∧ keptEdges s = keptEdges s') := by
  refine ⟨⟨allEdges_eq s, _, dump_eq s⟩, fun hl hl' hvalues h => ?_⟩
  rw [dump_eq, dump_eq] at h
  exact dumpFields_inj hl hl' hvalues (Except.ok.inj h)

end

/-! ## A graph in both representations -/

/-- A graph of one state with two edges to itself, of which one bears a feature with commas in its name. -/
def circling : GraphKind → Store (ProofGraph Float) Float
  | .state =>
    ⟨.state ⟨⟨default, [], ⟨100, 10⟩, ∅⟩, .single (.of default),
      Slots.empty.insert 0 [⟨0, ∅⟩, ⟨0, impliedFeatures "a,0@1"⟩]⟩, ∅, ∅⟩
  | .cachingId =>
    ⟨.cachingId ⟨⟨default, [], ⟨100, 10⟩, ∅⟩, .single (.of default),
      Slots.empty.insert 0 [⟨0, ∅⟩, ⟨0, .ofPairs [(2, 1)]⟩], 0, 1, none⟩,
      .ofList [restartFeature, trueLoopFeature, "a,0@1"], ∅⟩

theorem circling_eq (kind : GraphKind) : (circling kind).graph.size = 1 ∧
    keptEdges (circling kind) = [(0, ⟨0, ∅⟩), (0, ⟨0, impliedFeatures "a,0@1"⟩)] := by
  cases kind with
  | state => exact ⟨rfl, rfl⟩
  | cachingId => exact ⟨rfl, rfl⟩

/-- The two representations have the same dump, and so the same edges. -/
theorem dump_determines_graph_circling : (∀ kind, Legible (keptEdges (circling kind))) ∧
    (∀ x x', Bears (keptEdges (circling .state)) x → Bears (keptEdges (circling .cachingId)) x' →
      Written.text x = Written.text x' → x = x') ∧
    (dump (circling .state)).1 = (dump (circling .cachingId)).1 ∧
    (circling .state).graph.size = (circling .cachingId).graph.size ∧ keptEdges (circling .state) =
      keptEdges (circling .cachingId) := by
  have hfeature {name : String} {x : Float} (h : (impliedFeatures "a,0@1" : Features Float)[name]? = some x) :
      name = "a,0@1" ∧ x = 1 := by
    rw [impliedFeatures, Std.ExtTreeMap.getElem?_insert] at h
    split at h
    · rename_i heq
      exact ⟨(Std.LawfulEqCmp.eq_of_compare heq).symm, (Option.some.inj h).symm⟩
    · simp at h
  have hlegible (kind : GraphKind) : Legible (keptEdges (circling kind)) := by
    intro e he name hname
    rw [(circling_eq kind).2, List.mem_pair] at he
    rcases he with rfl | rfl
    · simp at hname
    · rw [Std.ExtTreeMap.mem_iff_isSome_getElem?, Option.isSome_iff_exists] at hname
      obtain ⟨x, hx⟩ := hname
      rw [(hfeature hx).1]
      decide
  have hone {kind : GraphKind} {x : Float} (h : Bears (keptEdges (circling kind)) x) : x = 1 := by
    obtain ⟨e, he, name, hx⟩ := h
    rw [(circling_eq kind).2, List.mem_pair] at he
    rcases he with rfl | rfl
    · simp at hx
    · exact (hfeature hx).2
  have hvalues : ∀ x x', Bears (keptEdges (circling .state)) x → Bears (keptEdges (circling .cachingId)) x' →
      Written.text x = Written.text x' → x = x' := fun x x' hx hx' _ => (hone hx).trans (hone hx').symm
  have hdump : (dump (circling .state)).1 = (dump (circling .cachingId)).1 := by
    simp only [dump_eq, circling_eq]
  exact ⟨hlegible, hvalues, hdump, (dump_determines_graph _ _).2 (hlegible .state)
    (hlegible .cachingId) hvalues hdump⟩

end ProofGraph

end ProofWalk
