import PagedGraph.Proofs.Triangle.Corners

/-!
# Every triangle once

`View.IsTriangle` says which triangles a view has.  An anchor gives the triangles it is
the smallest corner of, in lexicographic order (`View.trianglesAt_spec`): its distinct
neighbors are visited in ascending order, and for each of them the third corners come in
ascending order.

Batches go through the anchors in ascending order, so all batches together give every
triangle of the view once, in lexicographic order, for any number of workers
(`exists_triangleBatches`).
-/

namespace PagedGraph

/-! ## Lexicographic order -/

namespace Triangle

/-- The first triangle comes before the second. -/
def Before (s t : Triangle) : Prop := s.lexOrder t = .lt

theorem before_iff {s t : Triangle} :
    s.Before t ↔ s.a < t.a ∨ (s.a = t.a ∧ (s.b < t.b ∨ (s.b = t.b ∧ s.c < t.c))) := by
  simp [Before, lexOrder, Ordering.then_eq_lt, Nat.compare_eq_lt]

theorem before_of_a {s t : Triangle} (h : s.a < t.a) : s.Before t := before_iff.mpr (Or.inl h)

theorem before_of_b {s t : Triangle} (ha : s.a = t.a) (h : s.b < t.b) : s.Before t :=
  before_iff.mpr (Or.inr ⟨ha, Or.inl h⟩)

/-- Triangles in lexicographic order are all different. -/
theorem nodup_of_pairwise {ts : List Triangle} (h : ts.Pairwise Before) : ts.Nodup :=
  h.imp fun {s t} hst heq => by
    subst heq
    rw [before_iff] at hst
    omega

end Triangle

namespace View

/-- Three nodes of a view in ascending order, every two of them adjacent in both directions and
none of them with a higher degree than a bound allows. -/
structure IsTriangle (v : View) (maxDegree : Nat) (t : Triangle) : Prop where
  a_lt_b : t.a < t.b
  b_lt_c : t.b < t.c
  c_lt : t.c < v.nodeCount
  ab : t.b ∈ v.targets t.a ∧ t.a ∈ v.targets t.b
  ac : t.c ∈ v.targets t.a ∧ t.a ∈ v.targets t.c
  bc : t.c ∈ v.targets t.b ∧ t.b ∈ v.targets t.c
  degree_a : v.degree t.a ≤ maxDegree
  degree_b : v.degree t.b ≤ maxDegree
  degree_c : v.degree t.c ≤ maxDegree

/-! ## One anchor -/

/-- The triangles on an anchor and one neighbor, when `rest` reads what is left of the
anchor's targets. -/
def trianglesOn (v : View) (maxDegree anchor b : Nat) (rest : BaseCursor) : List Triangle :=
  if v.mayBeCorner maxDegree b then (thirdCorners v maxDegree b rest).map (⟨anchor, b, ·⟩) else []

theorem foldl_cons_eq {α β : Type} (f : α → β) (xs : List α) (found : List β) :
    xs.foldl (fun ys x => f x :: ys) found = (xs.map f).reverse ++ found := by
  induction xs generalizing found with
  | nil => rfl
  | cons x xs ih => simp [ih]

/-- Visiting a neighbor reports its triangles and goes on behind it. -/
theorem anchoredFrom_cons (v : View) (maxDegree anchor fuel b : Nat) (rest : BaseCursor)
    (found : List Triangle) :
    anchoredFrom v maxDegree anchor (fuel + 1) (some b, rest) found =
      anchoredFrom v maxDegree anchor fuel (v.cursor.seekAbove b rest)
        ((trianglesOn v maxDegree anchor b rest).reverse ++ found) := by
  rw [anchoredFrom, trianglesOn]
  split
  · rw [foldl_cons_eq]
  · rfl

variable {v : View}

/-- The triangles on an anchor and one neighbor. -/
theorem trianglesOn_spec (h : v.Sound) (maxDegree anchor : Nat) {b : Nat} (hb : b < v.nodeCount)
    {rest : BaseCursor} {ts : List Nat} (hrest : readsThrough v.layers rest ts) :
    (trianglesOn v maxDegree anchor b rest).Pairwise Triangle.Before ∧
      ∀ t, t ∈ trianglesOn v maxDegree anchor b rest ↔
        t.a = anchor ∧ t.b = b ∧ t.c ∈ ts ∧ t.c ∈ v.targets b ∧ b < t.c ∧
          v.degree b ≤ maxDegree ∧ v.degree t.c ≤ maxDegree := by
  obtain ⟨hpair, hmem⟩ := thirdCorners_spec h maxDegree hb hrest
  rw [trianglesOn]
  split
  · next hcorner =>
    have hdegree := mayBeCorner_iff.mp hcorner
    constructor
    · refine List.pairwise_map.mpr (hpair.imp fun hlt => ?_)
      exact Triangle.before_iff.mpr (Or.inr ⟨rfl, Or.inr ⟨rfl, hlt⟩⟩)
    · rintro ⟨a, b', c⟩
      rw [List.mem_map]
      constructor
      · rintro ⟨t, ht, heq⟩
        cases heq
        obtain ⟨hts, ht, hlt, hc⟩ := (hmem c).mp ht
        exact ⟨rfl, rfl, hts, ht, hlt, hdegree, hc⟩
      · rintro ⟨rfl, rfl, hts, ht, hlt, -, hc⟩
        exact ⟨c, (hmem c).mpr ⟨hts, ht, hlt, hc⟩, rfl⟩
  · next hcorner =>
    refine ⟨.nil, fun t => iff_of_false (by simp) ?_⟩
    rintro ⟨-, -, -, -, -, hdegree, -⟩
    exact hcorner (mayBeCorner_iff.mpr hdegree)

/-- The triangles on an anchor and two of some neighbors. -/
def AnchoredIn (v : View) (maxDegree anchor : Nat) (bs : List Nat) (t : Triangle) : Prop :=
  t.a = anchor ∧ t.b ∈ bs ∧ t.c ∈ bs ∧ t.b < t.c ∧ t.c ∈ v.targets t.b ∧
    v.degree t.b ≤ maxDegree ∧ v.degree t.c ≤ maxDegree

/-- Triangles on the first neighbor, or on later ones that are greater. -/
theorem anchoredIn_cons {maxDegree anchor b : Nat} {bs : List Nat} (hbs : ∀ u ∈ bs, b ≤ u)
    (t : Triangle) :
    AnchoredIn v maxDegree anchor (b :: bs) t ↔
      (t.a = anchor ∧ t.b = b ∧ t.c ∈ bs ∧ t.c ∈ v.targets b ∧ b < t.c ∧
        v.degree b ≤ maxDegree ∧ v.degree t.c ≤ maxDegree) ∨
      AnchoredIn v maxDegree anchor (bs.filter (b < ·)) t := by
  simp only [AnchoredIn, List.mem_cons, List.mem_filter, decide_eq_true_eq]
  constructor
  · rintro ⟨ha, hb | hb, hc, hlt, hmem, hdb, hdc⟩
    · subst hb
      rcases hc with hc | hc
      · exact absurd hlt (by omega)
      · exact Or.inl ⟨ha, rfl, hc, hmem, hlt, hdb, hdc⟩
    · have hle := hbs t.b hb
      rcases hc with hc | hc
      · exact absurd hlt (by omega)
      · rcases Nat.eq_or_lt_of_le hle with heq | hlt'
        · exact Or.inl ⟨ha, heq.symm, hc, heq ▸ hmem, heq ▸ hlt, heq ▸ hdb, hdc⟩
        · exact Or.inr ⟨ha, ⟨hb, hlt'⟩, ⟨hc, Nat.lt_trans hlt' hlt⟩, hlt, hmem, hdb, hdc⟩
  · rintro (⟨ha, rfl, hc, hmem, hlt, hdb, hdc⟩ | ⟨ha, ⟨hb, -⟩, ⟨hc, -⟩, hlt, hmem, hdb, hdc⟩)
    · exact ⟨ha, Or.inl rfl, Or.inr hc, hlt, hmem, hdb, hdc⟩
    · exact ⟨ha, Or.inr hb, Or.inr hc, hlt, hmem, hdb, hdc⟩

/-- Visiting some ascending neighbors reports the triangles on two of them, in order. -/
theorem anchoredFrom_spec (h : v.Sound) (maxDegree anchor : Nat) (fuel : Nat) :
    ∀ {found : Option Nat × BaseCursor} (before : List Triangle) {bs : List Nat},
      Cursor.Ahead (readsThrough v.layers) found bs → bs.length < fuel →
      (∀ b ∈ bs, b < v.nodeCount) →
      ∃ out, anchoredFrom v maxDegree anchor fuel found before = before.reverse ++ out ∧
        out.Pairwise Triangle.Before ∧ ∀ t, t ∈ out ↔ AnchoredIn v maxDegree anchor bs t := by
  induction fuel with
  | zero =>
    intro found before bs _ hfuel
    cases hfuel
  | succ fuel ih =>
    rintro ⟨b?, rest⟩ before bs hbs hfuel hnodes
    cases b? with
    | none =>
      rw [hbs.eq_nil, anchoredFrom]
      · exact ⟨[], (List.append_nil _).symm, .nil, by simp [AnchoredIn]⟩
      · simp
    | some b =>
      obtain ⟨bs, rfl, hrest, hle⟩ := hbs.exists_cons
      have hwalks := walks_cursor v
      have hb := hnodes b (List.mem_cons_self ..)
      have hlen := List.length_filter_le (b < ·) bs
      rw [List.length_cons] at hfuel
      obtain ⟨hpair, hmem⟩ := trianglesOn_spec h maxDegree anchor hb hrest
      obtain ⟨out, hout, hpair', hmem'⟩ := ih
        ((trianglesOn v maxDegree anchor b rest).reverse ++ before)
        (hwalks.ahead_seekAbove b hrest)
        (by omega) fun u hu => hnodes u (List.mem_cons_of_mem _ (List.mem_filter.mp hu).1)
      refine ⟨trianglesOn v maxDegree anchor b rest ++ out, ?_, ?_, fun t => ?_⟩
      · rw [anchoredFrom_cons, hout, List.reverse_append, List.reverse_reverse, List.append_assoc]
      · refine List.pairwise_append.mpr ⟨hpair, hpair', fun s hs t ht => ?_⟩
        obtain ⟨hsa, hsb, -⟩ := (hmem s).mp hs
        obtain ⟨hta, htb, -⟩ := (hmem' t).mp ht
        refine Triangle.before_of_b (hsa.trans hta.symm) ?_
        rw [hsb]
        exact of_decide_eq_true (List.mem_filter.mp htb).2
      · rw [List.mem_append, hmem, hmem', anchoredIn_cons hle]

/-- An anchor reports the triangles whose smallest corner it is, once each and in order. -/
theorem trianglesAt_spec (h : v.Sound) (hundirected : v.isUndirected = true) (maxDegree : Nat)
    {anchor : Nat}
    (hanchor : anchor < v.nodeCount) :
    trianglesAt? v maxDegree anchor = some (trianglesAt v maxDegree anchor) ∧
      (trianglesAt v maxDegree anchor).Pairwise Triangle.Before ∧
      ∀ t, t ∈ trianglesAt v maxDegree anchor ↔ t.a = anchor ∧ v.IsTriangle maxDegree t := by
  obtain ⟨run, hopen, hrun⟩ := h.opens hanchor
  have hwalks := walks_cursor v
  have hat : trianglesAt? v maxDegree anchor = some
      (if v.mayBeCorner maxDegree anchor then
        anchoredFrom v maxDegree anchor (v.cursor.left run + 1)
          (v.cursor.seekAbove anchor run) []
      else []) := by
    rw [trianglesAt?, hopen]
    rfl
  rw [trianglesAt, hat, Option.getD_some]
  refine ⟨rfl, ?_⟩
  split
  · next hcorner =>
    have hdegree := mayBeCorner_iff.mp hcorner
    have hlen := hwalks.left hrun
    have hfilter := List.length_filter_le (anchor < ·) (v.targets anchor)
    obtain ⟨out, hout, hpair, hmem⟩ := anchoredFrom_spec h maxDegree
      anchor (v.cursor.left run + 1) [] (hwalks.ahead_seekAbove anchor hrun)
      (by omega) fun b hb => h.bounded hanchor (List.mem_filter.mp hb).1
    rw [hout, List.reverse_nil, List.nil_append]
    refine ⟨hpair, fun t => (hmem t).trans ?_⟩
    simp only [AnchoredIn, List.mem_filter, decide_eq_true_eq]
    constructor
    · rintro ⟨rfl, ⟨hab, hlt⟩, ⟨hac, -⟩, hlt', hbc, hdb, hdc⟩
      have hb := h.bounded hanchor hab
      have hc := h.bounded hanchor hac
      exact ⟨rfl, hlt, hlt', hc, ⟨hab, h.symmetric hundirected hanchor hab⟩,
        ⟨hac, h.symmetric hundirected hanchor hac⟩, ⟨hbc, h.symmetric hundirected hb hbc⟩,
        hdegree, hdb, hdc⟩
    · rintro ⟨rfl, ht⟩
      exact ⟨rfl, ⟨ht.ab.1, ht.a_lt_b⟩, ⟨ht.ac.1, Nat.lt_trans ht.a_lt_b ht.b_lt_c⟩, ht.b_lt_c,
        ht.bc.1, ht.degree_b, ht.degree_c⟩
  · next hcorner =>
    refine ⟨.nil, fun t => iff_of_false (by simp) ?_⟩
    rintro ⟨rfl, ht⟩
    exact hcorner (mayBeCorner_iff.mpr ht.degree_a)

/-! ## All anchors -/

/-- The triangles of all anchors, anchor after anchor. -/
def allTriangles (v : View) (maxDegree : Nat) : List Triangle :=
  (List.range v.nodeCount).flatMap (trianglesAt v maxDegree)

theorem pairwise_allTriangles (h : v.Sound) (hundirected : v.isUndirected = true)
    (maxDegree : Nat) : (v.allTriangles maxDegree).Pairwise Triangle.Before := by
  refine List.pairwise_flatMap.mpr ⟨fun anchor hanchor => ?_, ?_⟩
  · exact (trianglesAt_spec h hundirected _ (List.mem_range.mp hanchor)).2.1
  · refine List.pairwise_lt_range.imp_of_mem fun {x y} hx hy hxy s hs t ht => ?_
    have hsx := (((trianglesAt_spec h hundirected _ (List.mem_range.mp hx)).2.2 s).mp hs).1
    have hty := (((trianglesAt_spec h hundirected _ (List.mem_range.mp hy)).2.2 t).mp ht).1
    exact Triangle.before_of_a (by omega)

theorem mem_allTriangles (h : v.Sound) (hundirected : v.isUndirected = true) {maxDegree : Nat}
    (t : Triangle) : t ∈ v.allTriangles maxDegree ↔ v.IsTriangle maxDegree t := by
  rw [allTriangles, List.mem_flatMap]
  constructor
  · rintro ⟨anchor, hanchor, ht⟩
    exact (((trianglesAt_spec h hundirected _ (List.mem_range.mp hanchor)).2.2 t).mp ht).2
  · intro ht
    have ha : t.a < v.nodeCount := Nat.lt_trans ht.a_lt_b (Nat.lt_trans ht.b_lt_c ht.c_lt)
    exact ⟨t.a, List.mem_range.mpr ha, ((trianglesAt_spec h hundirected _ ha).2.2 t).mpr ⟨rfl, ht⟩⟩

/-- The triangles of one anchor are those of all anchors that have it as smallest corner. -/
theorem trianglesAt_eq_filter (h : v.Sound) (hundirected : v.isUndirected = true)
    {maxDegree anchor : Nat} (hanchor : anchor < v.nodeCount) :
    trianglesAt v maxDegree anchor = (v.allTriangles maxDegree).filter (·.a = anchor) := by
  obtain ⟨-, hpair, hmem⟩ := trianglesAt_spec h hundirected maxDegree hanchor
  have hirrefl : ∀ {s t : Triangle}, s.Before t → t.Before s → s = t := by
    intro s t hst hts
    rw [Triangle.before_iff] at hst hts
    exact absurd hst (by omega)
  have hpair' := (pairwise_allTriangles h hundirected maxDegree).filter (·.a = anchor)
  have hperm := (List.perm_ext_iff_of_nodup (Triangle.nodup_of_pairwise hpair)
    (Triangle.nodup_of_pairwise hpair')).mpr fun t => by
      rw [hmem, List.mem_filter, mem_allTriangles h hundirected, decide_eq_true_eq, and_comm]
  exact hperm.eq_of_pairwise (fun _ _ _ _ => hirrefl) hpair hpair'

/-- A consumer that never asks to stop gets every batch. -/
theorem reportBatches_eq {σ : Type} (v : View) (maxDegree : Nat) {accept : σ → Triangle → σ}
    {stops : σ → Bool} {P : σ → Prop} (haccept : ∀ s t, P s → P (accept s t))
    (hstops : ∀ s, P s → stops s = false) (batches : List NodeRange) :
    ∀ {s : σ} (before : List (List Triangle)), P s →
      reportBatches v maxDegree accept stops batches s before =
        (before.reverse ++ batches.map fun batch => batch.nodes.flatMap (trianglesAt v maxDegree),
          (batches.flatMap fun batch => batch.nodes.flatMap (trianglesAt v maxDegree)).foldl
            accept s) := by
  induction batches with
  | nil =>
    intro s before _
    rw [reportBatches, List.map_nil, List.append_nil]
    rfl
  | cons batch batches ih =>
    intro s before hs
    have hfold : ∀ ts : List Triangle, P (ts.foldl accept s) := fun ts =>
      List.foldlRecOn ts accept hs fun s hs t _ => haccept s t hs
    rw [reportBatches, reportBatch, hstops s hs, if_neg Bool.false_ne_true]
    refine (ih _ (hfold _)).trans ?_
    simp [List.foldl_append]

/-- All batches together go through all anchors. -/
theorem flatMap_batches (v : View) (maxDegree workers : Nat) :
    ((batchesOf v.nodeCount workers).flatMap fun batch =>
      batch.nodes.flatMap (trianglesAt v maxDegree)) = v.allTriangles maxDegree := by
  rw [allTriangles, ← flatMap_nodes_batchesOf v.nodeCount workers, List.flatMap_assoc]

/-- The triangles of every batch of a search. -/
def foundBatches (v : View) (config : TriangleSettings) : List (List Triangle) :=
  (batchesOf v.nodeCount config.workers).map fun batch =>
    batch.nodes.flatMap (trianglesAt v config.maxDegree)

theorem flatten_foundBatches (v : View) (config : TriangleSettings) :
    (v.foundBatches config).flatten = v.allTriangles config.maxDegree := by
  rw [foundBatches, ← List.flatMap_def, flatMap_batches]

/-- A search that nobody stops goes through all batches. -/
theorem reportTriangles_eq_ok {σ : Type} (hundirected : v.isUndirected = true)
    {config : TriangleSettings} (hworkers : 0 < config.workers) {accept : σ → Triangle → σ}
    {stops : σ → Bool} {P : σ → Prop} (haccept : ∀ s t, P s → P (accept s t))
    (hstops : ∀ s, P s → stops s = false) {s : σ} (hs : P s) :
    reportTriangles v config accept stops s = .ok
      (some (v.foundBatches config), (v.allTriangles config.maxDegree).foldl accept s) := by
  have hfold : P ((v.allTriangles config.maxDegree).foldl accept s) :=
    List.foldlRecOn _ accept hs fun s hs t _ => haccept s t hs
  rw [reportTriangles, checkUndirected, if_pos hundirected, checkWorkers_eq_ok hworkers]
  simp only [bind, Except.bind, pure, Except.pure]
  rw [reportBatches_eq v config.maxDegree haccept hstops _ [] hs, flatMap_batches]
  simp only [hstops _ hfold, if_neg Bool.false_ne_true]
  rfl

theorem triangleBatches_eq_ok (hundirected : v.isUndirected = true) {config : TriangleSettings}
    (hworkers : 0 < config.workers) :
    triangleBatches v config false = .ok (some (v.foundBatches config)) := by
  have hreport := @reportTriangles_eq_ok v Bool hundirected config hworkers (fun s _ => s) id
    (· = false) (fun _ _ hs => hs) (fun _ hs => hs) false rfl
  rw [triangleBatches, hreport]
  rfl

/-- All triangles come sorted already. -/
theorem triangles_eq_ok (h : v.Sound) (hundirected : v.isUndirected = true)
    {config : TriangleSettings} (hworkers : 0 < config.workers) :
    triangles v config false = .ok (some (v.allTriangles config.maxDegree)) := by
  have hsorted : (v.allTriangles config.maxDegree).mergeSort (fun s t => (s.lexOrder t).isLE) =
      v.allTriangles config.maxDegree :=
    List.mergeSort_of_pairwise ((pairwise_allTriangles h hundirected config.maxDegree).imp
      fun hst => by rw [hst]; rfl)
  rw [triangles, TriangleSettings.validate, checkWorkers_eq_ok hworkers,
    triangleBatches_eq_ok hundirected hworkers]
  simp only [bind, Except.bind, pure, Except.pure, Option.map_some, List.flatMap_id,
    flatten_foundBatches, hsorted]

/-- The batches of a search hold every triangle of the view once, in lexicographic order.  They are
what a consumer gets, what the sorted list of all triangles is, and what single anchors
report.  The degrees that are bounded are the numbers of targets, if these fit in 32 bits. -/
theorem exists_triangleBatches (hv : v.Loaded) (hundirected : v.isUndirected = true)
    (config : TriangleSettings) (hworkers : 0 < config.workers) :
    ∃ batches, triangleBatches v config false = .ok (some batches) ∧
      batches.flatten.Pairwise Triangle.Before ∧
      (∀ t, t ∈ batches.flatten ↔ v.IsTriangle config.maxDegree t) ∧
      triangles v config false = .ok (some batches.flatten) ∧
      (∀ {σ : Type} (accept : σ → Triangle → σ) (s : σ),
        reportTriangles v config accept (fun _ => false) s =
          .ok (some batches, batches.flatten.foldl accept s)) ∧
      (∀ anchor < v.nodeCount, trianglesAt? v config.maxDegree anchor =
        some (batches.flatten.filter (·.a = anchor))) ∧
      (v.DegreesFit → ∀ node < v.nodeCount, v.degree node = (v.targets node).length) := by
  have h := hv.sound
  have hbatches := triangleBatches_eq_ok hundirected hworkers
  have hpair := pairwise_allTriangles h hundirected config.maxDegree
  refine ⟨v.foundBatches config, hbatches, ?_⟩
  rw [flatten_foundBatches]
  refine ⟨hpair, mem_allTriangles h hundirected, triangles_eq_ok h hundirected hworkers,
    fun accept s => ?_, fun anchor hanchor => ?_, fun hfits _ => h.degree_of_fits hfits⟩
  · exact reportTriangles_eq_ok (P := fun _ => True) hundirected hworkers (fun _ _ _ => trivial)
      (fun _ _ => rfl) trivial
  · rw [(trianglesAt_spec h hundirected config.maxDegree hanchor).1,
      trianglesAt_eq_filter h hundirected hanchor]

/-- The search on three nodes, every two of them related. -/
theorem exists_triangleBatches_threeNodes :
    ∃ batches, triangleBatches threeNodeView { workers := 2 } false = .ok (some batches) ∧
      (∀ t, t ∈ batches.flatten ↔ threeNodeView.IsTriangle maxDegreeCutoff t) ∧
      ∀ node < 3, threeNodeView.degree node = (threeNodeView.targets node).length := by
  obtain ⟨batches, hbatches, -, hmem, -, -, -, hdegree⟩ := exists_triangleBatches
    loaded_threeNodeView isUndirected_threeNodeView { workers := 2 } (by decide)
  exact ⟨batches, hbatches, hmem, hdegree degreesFit_threeNodeView⟩

end View

end PagedGraph
