import Mathlib.Order.Basic
import OvStorage.Address.Canonical

/-!
# Nodes

What an address names, apart from how it is spelled: a `Node` is a scheme, a host, a
port, the list of decoded segments and a pinned query. One node *covers* another when
it names an ancestor of it or the same: the segments are a front of the other's and a
pinned query is the other's.

This is the meaning that the string comparisons of the chain are held against: the
route table, the alias projection, the metadata cache and the authorization rules
each decide coverage in their own way.
-/

namespace OvStorage.Address

open SegList List

/-- What an address names. -/
@[ext]
structure Node where
  scheme : Bytes
  host : Option Bytes
  port : Option UInt16
  segs : List Bytes
  query : Option Bytes
deriving DecidableEq

namespace Node

/-- The node is an ancestor of the other, or the same. -/
structure Covers (p a : Node) : Prop where
  scheme : p.scheme = a.scheme
  host : p.host = a.host
  port : p.port = a.port
  segs : p.segs <+: a.segs
  query : p.query = none ∨ p.query = a.query

/-- Depth, then whether a query is pinned. -/
def rank (n : Node) : ℕ ×ₗ Bool := toLex (n.segs.length, n.query.isSome)

theorem Covers.refl (n : Node) : n.Covers n := ⟨rfl, rfl, rfl, prefix_rfl, Or.inr rfl⟩

variable {a p b q : Node}

theorem Covers.trans {c : Node} (h : a.Covers b) (k : b.Covers c) : a.Covers c where
  scheme := h.scheme.trans k.scheme
  host := h.host.trans k.host
  port := h.port.trans k.port
  segs := h.segs.trans k.segs
  query := by
    rcases h.query with hq | hq
    · exact Or.inl hq
    · rcases k.query with kq | kq
      · exact Or.inl (hq.trans kq)
      · exact Or.inr (hq.trans kq)

/-- What is above a node is at most as specific. -/
theorem Covers.rank_le (h : p.Covers a) : p.rank ≤ a.rank := by
  rw [rank, rank, Prod.Lex.toLex_le_toLex]
  rcases Nat.lt_or_eq_of_le h.segs.length_le with hlt | heq
  · exact .inl hlt
  · refine .inr ⟨heq, ?_⟩
    rcases h.query with hq | hq
    · simp [hq]
    · rw [hq]

/-- Two nodes above one node with the same rank are one. -/
theorem Covers.eq_of_rank_eq (hp : p.Covers a) (hq : q.Covers a) (h : p.rank = q.rank) : p = q := by
  obtain ⟨hlen, hquery⟩ := Prod.mk.inj (toLex.injective h)
  refine Node.ext (hp.scheme.trans hq.scheme.symm) (hp.host.trans hq.host.symm) (hp.port.trans hq.port.symm) ?_ ?_
  · exact (prefix_of_prefix_length_le hp.segs hq.segs (Nat.le_of_eq hlen)).eq_of_length hlen
  · rcases hp.query with h1 | h1 <;> rcases hq.query with h2 | h2
    · rw [h1, h2]
    · rw [h1] at hquery ⊢
      cases hqq : q.query with
      | none => rfl
      | some w => rw [hqq] at hquery; exact absurd hquery (by simp)
    · rw [h2] at hquery ⊢
      cases hpp : p.query with
      | none => rfl
      | some w => rw [hpp] at hquery; exact absurd hquery (by simp)
    · rw [h1, h2]

/-- Of two nodes above one node, the one that is as shallow and pins no query covers the other. -/
theorem Covers.of_rank_le (hp : p.Covers a) (hq : q.Covers a) (hquery : p.query = none) (h : p.rank ≤ q.rank) :
    p.Covers q where
  scheme := hp.scheme.trans hq.scheme.symm
  host := hp.host.trans hq.host.symm
  port := hp.port.trans hq.port.symm
  segs := by
    rw [rank, rank, Prod.Lex.toLex_le_toLex] at h
    refine prefix_of_prefix_length_le hp.segs hq.segs ?_
    rcases h with hlt | heq
    · exact Nat.le_of_lt hlt
    · exact Nat.le_of_eq heq.1
  query := Or.inl hquery

theorem Covers.antisymm (h : a.Covers b) (k : b.Covers a) : a = b := by
  refine Node.ext h.scheme h.host h.port (List.IsPrefix.eq_of_length_le h.segs k.segs.length_le) ?_
  rcases h.query with hq | hq
  · rcases k.query with kq | kq
    · rw [hq, kq]
    · exact kq.symm
  · exact hq

end Node

/-! ### The node of an address -/

/-- The segments without the empty one that a trailing `/` is. -/
def nodeSegs (ss : List Bytes) : List Bytes := if ss.getLast? = some [] then ss.dropLast else ss

/-- The text of a node path: the root is `/`. -/
def nodeText (ns : List Bytes) : Bytes := if ns = [] then [slash] else pieces slash ns

/-- The decoded segments of an address. -/
def decodedSegments (u : Parts) : List Bytes :=
  (((nodePath u).splitOn slash).filter (· ≠ [])).map percentDecode

/-- The node an address names. -/
def nodeOf (u : Parts) : Node := ⟨u.scheme, u.host, u.port, decodedSegments u, u.query⟩

variable {ns ss st ms tt : List Bytes}

theorem settled_concat (h : Settled ss) (hne : ss ≠ []) :
    ∃ init last, ss = init ++ [last] ∧ (∀ s ∈ init, Names s) ∧ (last = [] ∨ Names last) := by
  induction ss with
  | nil => exact absurd rfl hne
  | cons s ss ih =>
    cases ss with
    | nil => exact ⟨[], s, rfl, by simp, h⟩
    | cons t ss =>
      obtain ⟨init, last, he, hi, hl⟩ := ih h.2 (by simp)
      refine ⟨s :: init, last, by rw [he]; rfl, ?_, hl⟩
      intro x hx
      rcases mem_cons.mp hx with rfl | hx
      · exact h.1
      · exact hi x hx

theorem nodeSegs_names (h : Settled ss) : ∀ s ∈ nodeSegs ss, Names s := by
  by_cases hne : ss = []
  · subst hne; simp [nodeSegs]
  · obtain ⟨init, last, rfl, hi, hl⟩ := settled_concat h hne
    unfold nodeSegs
    split_ifs with hlast
    · simpa using hi
    · intro x hx
      rcases mem_append.mp hx with hx | hx
      · exact hi x hx
      · rw [mem_singleton.mp hx]
        exact hl.resolve_left fun he => hlast (by simp [he])

theorem nodeSegs_sublist (ss : List Bytes) : (nodeSegs ss).Sublist ss := by
  unfold nodeSegs
  split_ifs
  · exact dropLast_sublist ss
  · exact List.Sublist.refl ss

theorem nodeSegs_front (ss : List Bytes) : nodeSegs ss <+: ss := by
  unfold nodeSegs
  split_ifs
  · exact dropLast_prefix ss
  · exact prefix_rfl

theorem nodeSegs_map {f : Bytes → Bytes} (hf : ∀ s, f s = [] ↔ s = []) (ss : List Bytes) :
    nodeSegs (ss.map f) = (nodeSegs ss).map f := by
  unfold nodeSegs
  rw [List.getLast?_map]
  have hiff : (ss.getLast?.map f = some []) ↔ ss.getLast? = some [] := by
    cases ss.getLast? with
    | none => simp
    | some s => simp [hf]
  by_cases h : ss.getLast? = some []
  · rw [if_pos h, if_pos (hiff.mpr h), map_dropLast]
  · rw [if_neg h, if_neg (fun hh => h (hiff.mp hh))]

theorem dropSuffix?_slash_of_not_mem {p s : Bytes} (hs : slash ∉ s) (hne : s ≠ []) :
    (p ++ s).dropSuffix? [slash] = none := by
  rw [Option.eq_none_iff_forall_ne_some]
  intro q hq
  rw [dropSuffix?_eq_some] at hq
  have hlast := congrArg List.getLast? hq
  rw [List.getLast?_append_of_ne_nil _ hne, List.getLast?_concat] at hlast
  exact hs (mem_of_getLast? hlast)

theorem nodeSegs_concat_nil (init : List Bytes) : nodeSegs (init ++ [[]]) = init := by
  simp [nodeSegs]

theorem nodeSegs_concat {last : Bytes} (h : last ≠ []) (init : List Bytes) :
    nodeSegs (init ++ [last]) = init ++ [last] := by
  simp [nodeSegs, h]

/-- Of settled segments only the empty last one goes. -/
theorem nodeSegs_of_settled (h : Settled ss) : nodeSegs ss = ss.filter (· ≠ []) := by
  by_cases hne : ss = []
  · subst hne
    rfl
  · obtain ⟨init, last, rfl, hi, hl⟩ := settled_concat h hne
    have hinit : init.filter (· ≠ []) = init := by
      rw [filter_eq_self]
      intro s hs
      simpa using (hi s hs).1
    rw [filter_append, hinit]
    rcases hl with rfl | hl
    · rw [nodeSegs_concat_nil]
      simp
    · rw [nodeSegs_concat hl.1]
      simp [hl.1]

variable {u v : Parts}

/-- `node_path` of a path given by its segments. -/
theorem nodePath_pieces {es : List Bytes} (hpath : u.path = pieces slash es) (hne : es ≠ [])
    (hsep : SepFree slash es) : nodePath u = nodeText (nodeSegs es) := by
  obtain ⟨init, last, rfl⟩ : ∃ init last, es = init ++ [last] :=
    ⟨es.dropLast, es.getLast hne, (dropLast_append_getLast hne).symm⟩
  have hlast : slash ∉ last := hsep last (by simp)
  unfold nodePath nodeText
  rw [hpath]
  by_cases hl : last = []
  · subst hl
    rw [nodeSegs_concat_nil]
    cases init with
    | nil => simp
    | cons s init =>
      have hdrop : (pieces slash ((s :: init) ++ [[]])).dropSuffix? [slash] = some (pieces slash (s :: init)) := by
        rw [dropSuffix?_eq_some]; simp
      have hlen : 1 < (pieces slash ((s :: init) ++ [[]])).length := by
        simp only [pieces_append, pieces_cons, pieces_nil, length_append, length_cons]
        omega
      rw [hdrop, if_pos hlen, if_neg (by simp)]
      rfl
  · have hdrop : (pieces slash (init ++ [last])).dropSuffix? [slash] = none := by
      have he : pieces slash (init ++ [last]) = (pieces slash init ++ [slash]) ++ last := by simp
      rw [he]
      exact dropSuffix?_slash_of_not_mem hlast hl
    have hpos : 0 < last.length := length_pos_iff.mpr hl
    have hlen : 1 < (pieces slash (init ++ [last])).length := by
      simp only [pieces_append, pieces_cons, pieces_nil, append_nil, length_append, length_cons]
      omega
    rw [nodeSegs_concat hl, hdrop, if_pos hlen, if_neg (by simp)]
    rfl

section Shaped

variable {u : Parts} {st : List Bytes}

theorem Shape.nodePath_eq (h : Shape u st) : nodePath u = nodeText (escapedSegs u (nodeSegs st)) := by
  rw [nodePath_pieces h.path h.escaped_ne_nil (escapedSegs_sepFree h.sepFree), escapedSegs,
    nodeSegs_map fun _ => percentEncode_eq_nil_iff]
  rfl

theorem Shape.nodeSegs_sepFree (h : Shape u st) : SepFree slash (nodeSegs st) :=
  fun s hs => h.sepFree s ((nodeSegs_sublist st).subset hs)

theorem escapedSegs_nonempty (h : ∀ s ∈ ns, Names s) (u : Parts) : ∀ s ∈ escapedSegs u ns, s ≠ [] := by
  intro s hs
  obtain ⟨x, hx, rfl⟩ := mem_map.mp hs
  exact fun he => (h x hx).1 (percentEncode_eq_nil_iff.mp he)

theorem splitOn_nodeText (hsep : SepFree slash ns) (hne : ∀ s ∈ ns, s ≠ []) :
    ((nodeText ns).splitOn slash).filter (· ≠ []) = ns := by
  unfold nodeText
  split_ifs with h
  · subst h; decide
  · rw [splitOn_pieces hsep]
    rw [filter_cons_of_neg (by simp), filter_eq_self]
    intro s hs
    simpa using hne s hs

theorem Shape.nodeSegments (h : Shape u st) :
    ((nodePath u).splitOn slash).filter (· ≠ []) = escapedSegs u (nodeSegs st) := by
  rw [h.nodePath_eq]
  exact splitOn_nodeText (escapedSegs_sepFree h.nodeSegs_sepFree) (escapedSegs_nonempty (nodeSegs_names h.settled) u)

theorem map_decode_escaped (u : Parts) (ns : List Bytes) : (escapedSegs u ns).map percentDecode = ns := by
  have hp := (canonicalPathSets_percent (canonicalPathSet_mem u)).1
  unfold escapedSegs
  rw [map_map]
  conv_rhs => rw [← map_id ns]
  exact map_congr_left fun s _ => percentDecode_percentEncode hp s

/-- The decoded segments of a canonical address. -/
theorem Shape.decodedSegments (h : Shape u st) : decodedSegments u = nodeSegs st := by
  rw [Address.decodedSegments, h.nodeSegments, map_decode_escaped]

/-- `node_rank` is the rank of the node. -/
theorem Shape.nodeRank_eq (h : Shape u st) : nodeRank u = (nodeOf u).rank := by
  rw [nodeRank, nodeSegmentCount, h.nodeSegments, Node.rank, nodeOf, h.decodedSegments]
  simp [escapedSegs]

end Shaped

theorem escapedSegs_injective (h : escapedSegs u ns = escapedSegs u ms) : ns = ms := by
  rw [← map_decode_escaped u ns, h, map_decode_escaped]

theorem nodeText_inj (hns : SepFree slash ns) (hms : SepFree slash ms)
    (hne : ∀ s ∈ ns, s ≠ []) (hme : ∀ s ∈ ms, s ≠ []) (h : nodeText ns = nodeText ms) : ns = ms := by
  rw [← splitOn_nodeText hns hne, h, splitOn_nodeText hms hme]

/-- Equal node paths on equal authorities are equal segments. -/
theorem Shape.nodePath_eq_iff (hu : Shape u st) (hv : Shape v tt) (hs : u.scheme = v.scheme) (hh : u.host = v.host) :
    nodePath u = nodePath v ↔ Address.decodedSegments u = Address.decodedSegments v := by
  have hset : ∀ ns, escapedSegs u ns = escapedSegs v ns := escapedSegs_congr hs (by rw [hh])
  rw [hu.decodedSegments, hv.decodedSegments, hu.nodePath_eq, hv.nodePath_eq]
  constructor
  · intro he
    rw [hset] at he
    apply escapedSegs_injective (u := v)
    exact nodeText_inj (escapedSegs_sepFree hu.nodeSegs_sepFree) (escapedSegs_sepFree hv.nodeSegs_sepFree)
      (escapedSegs_nonempty (nodeSegs_names hu.settled) v) (escapedSegs_nonempty (nodeSegs_names hv.settled) v) he
  · intro he
    rw [he, hset]

/-- One `node_key`, one node. -/
theorem Shape.nodeKey_eq_iff (hu : Shape u st) (hv : Shape v tt) : nodeKey u = nodeKey v ↔ nodeOf u = nodeOf v := by
  simp only [nodeKey, nodeOf, Prod.mk.injEq, Node.mk.injEq]
  constructor
  · rintro ⟨hs, hh, hp, hn, hq⟩
    exact ⟨hs, hh, hp, (hu.nodePath_eq_iff hv hs hh).mp hn, hq⟩
  · rintro ⟨hs, hh, hp, hn, hq⟩
    exact ⟨hs, hh, hp, (hu.nodePath_eq_iff hv hs hh).mpr hn, hq⟩

/-! ### The two spellings of a node path -/

theorem nodeSegs_of_nonempty (h : ∀ s ∈ ns, s ≠ []) : nodeSegs ns = ns := by
  unfold nodeSegs
  rw [if_neg]
  intro hlast
  exact h [] (mem_of_getLast? hlast) rfl

theorem nodeText_eq_root_iff (h : ∀ s ∈ ns, s ≠ []) : nodeText ns = [slash] ↔ ns = [] := by
  constructor
  · intro he
    cases ns with
    | nil => rfl
    | cons s ns =>
      simp only [nodeText, reduceCtorEq, if_false, pieces_cons, List.cons.injEq, append_eq_nil_iff, true_and] at he
      exact absurd he.1 (h s mem_cons_self)
  · rintro rfl; rfl

section Spellings

variable {u : Parts} {st : List Bytes}

/-- A canonical path is its node path, or that and a trailing `/`. -/
theorem Shape.path_cases (h : Shape u st) :
    u.path = nodePath u ∨ u.path = nodePath u ++ [slash] ∧ nodePath u ≠ [slash] := by
  have hnames := escapedSegs_nonempty (nodeSegs_names h.settled) u
  rw [h.nodePath_eq]
  obtain ⟨init, last, hst, -, -⟩ := settled_concat h.settled h.ne_nil
  by_cases hl : last = []
  · subst hl
    have hns : nodeSegs st = init := by rw [hst, nodeSegs_concat_nil]
    have hpath : u.path = pieces slash (escapedSegs u init) ++ [slash] := by
      rw [h.path, hst]; simp [escapedSegs]
    rw [hns] at hnames ⊢
    by_cases hi : init = []
    · subst hi; exact Or.inl hpath
    · right
      have hne : escapedSegs u init ≠ [] := by simpa [escapedSegs] using hi
      rw [ne_eq, nodeText_eq_root_iff hnames, nodeText, if_neg hne]
      exact ⟨hpath, hne⟩
  · left
    have hns : nodeSegs st = st := by rw [hst, nodeSegs_concat hl]
    rw [hns, h.path, nodeText, if_neg h.escaped_ne_nil]

/-- Either spelling has that node path. -/
theorem Shape.nodePath_of_spelling (h : Shape u st) {a : Parts}
    (ha : a.path = nodePath u ∨ a.path = nodePath u ++ [slash] ∧ nodePath u ≠ [slash]) : nodePath a = nodePath u := by
  have hnames := escapedSegs_nonempty (nodeSegs_names h.settled) u
  have hsep := escapedSegs_sepFree (u := u) h.nodeSegs_sepFree
  rw [h.nodePath_eq] at ha ⊢
  generalize escapedSegs u (nodeSegs st) = ns at hnames hsep ha ⊢
  rcases ha with ha | ⟨ha, hroot⟩
  · by_cases hn : ns = []
    · subst hn
      rw [nodePath, ha]
      rfl
    · rw [nodeText, if_neg hn] at ha
      rw [nodePath_pieces ha hn hsep, nodeSegs_of_nonempty hnames]
  · have hn : ns ≠ [] := fun he => hroot (by rw [he]; rfl)
    have ha' : a.path = pieces slash (ns ++ [[]]) := by
      rw [ha, nodeText, if_neg hn]; simp
    rw [nodePath_pieces ha' (by simp) (by simp [hsep]), nodeSegs_concat_nil]

/-- Both spellings are paths the setter keeps. -/
theorem Shape.nodePath_fixed (h : Shape u st) : PathFixed u.scheme (nodePath u) := by
  rw [h.nodePath_eq, nodeText]
  split_ifs with hn
  · exact pathFixed_root _
  · have hne : nodeSegs st ≠ [] := fun he => hn (by rw [he]; rfl)
    refine pathFixed_escaped u hne h.nodeSegs_sepFree ?_
    simpa using Settled.append (nodeSegs_names h.settled) (show Settled [] from trivial)

theorem Shape.nodePath_slash_fixed (h : Shape u st) (hroot : nodePath u ≠ [slash]) :
    PathFixed u.scheme (nodePath u ++ [slash]) := by
  rw [h.nodePath_eq] at hroot ⊢
  have hn : escapedSegs u (nodeSegs st) ≠ [] := fun he => hroot (by rw [he]; rfl)
  have hpath : nodeText (escapedSegs u (nodeSegs st)) ++
      [slash] = pieces slash (escapedSegs u (nodeSegs st ++ [[]])) := by
    rw [nodeText, if_neg hn]; simp [escapedSegs]
  rw [hpath]
  exact pathFixed_escaped u (by simp) (by simp [h.nodeSegs_sepFree])
    (Settled.append (nodeSegs_names h.settled) (show Settled [[]] from Or.inl rfl))

end Spellings

/-- A canonical address with another settled path, and with its query or none. -/
theorem canonical_withSegs {U : UrlCrate} (law : U.Lawful) {u v : Url} (hu : Canonical U u)
    {q : Option Bytes} (hq : q = none ∨ q = u.query)
    (hv : v.toParts = { u.toParts with path := pieces slash (escapedSegs u.toParts st), query := q })
    (hne : st ≠ []) (hsep : SepFree slash st) (hset : Settled st) :
    Canonical U v ∧ decodedSegments v.toParts = nodeSegs st := by
  obtain ⟨us, hus⟩ := hu.shape law
  have hshape : Shape v.toParts st := by
    refine ⟨?_, hne, hsep, hset, ?_, ?_⟩
    · rw [hv]
      refine congrArg (pieces slash) (escapedSegs_congr ?_ ?_ st) <;> rfl
    · rw [hv]
      exact hus.lowercase
    · rw [hv]
      exact hus.fragment
  have hquery : ∀ x ∈ v.query, QueryFixed v.scheme x := by
    rw [hv]
    rcases hq with rfl | rfl
    · simp
    · exact law.parsed_query u hu.parsed
  have hparsed : U.Parsed v := by
    refine law.parse_respell u v hu.parsed ?_ hshape.not_driveShare
    exact ⟨by rw [hv], Or.inl (by rw [hv]), by rw [hv], Or.inl ⟨by rw [hv], by rw [hv]⟩, hshape.pathFixed, hquery,
      hshape.fragment⟩
  exact ⟨canonical_of_shape law hshape hparsed, hshape.decodedSegments⟩

end OvStorage.Address
