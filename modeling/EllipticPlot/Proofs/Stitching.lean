import Mathlib
import EllipticPlot.Binary64
import EllipticPlot.Proofs.SeedFate

/-!
# Stitching

How the fates of the seeds become branches: every open branch is kept at its place, and the half
loops are paired in the order of their seeds. A half loop waits exactly when the number of half
loops so far is odd, and then it is the last of them; all else follows from this invariant.
-/

namespace EllipticPlot

variable {α : Type}

namespace SeedFate

def half? : SeedFate α → Option (HalfLoop α)
  | half h => some h
  | _ => none

def escaped? : SeedFate α → Option (Branch α)
  | escaped vertices => some ⟨vertices, false⟩
  | _ => none

def size : SeedFate α → Nat
  | leftOut => 0
  | escaped vertices => vertices.size
  | half h => h.vertices.size

end SeedFate

def halves (fates : List (SeedFate α)) : List (HalfLoop α) := fates.filterMap SeedFate.half?

@[simp] theorem halves_leftOut (fates : List (SeedFate α)) :
    halves (.leftOut :: fates) = halves fates := rfl

@[simp] theorem halves_escaped (vertices : Array (Point α)) (fates : List (SeedFate α)) :
    halves (.escaped vertices :: fates) = halves fates := rfl

@[simp] theorem halves_half (half : HalfLoop α) (fates : List (SeedFate α)) :
    halves (.half half :: fates) = half :: halves fates := rfl

@[simp] theorem halves_nil : halves ([] : List (SeedFate α)) = [] := rfl

theorem halves_append (fates gates : List (SeedFate α)) :
    halves (fates ++ gates) = halves fates ++ halves gates := List.filterMap_append

def escapes (fates : List (SeedFate α)) : List (Branch α) := fates.filterMap SeedFate.escaped?

@[simp] theorem escapes_leftOut (fates : List (SeedFate α)) :
    escapes (.leftOut :: fates) = escapes fates := rfl

@[simp] theorem escapes_escaped (vertices : Array (Point α)) (fates : List (SeedFate α)) :
    escapes (.escaped vertices :: fates) = ⟨vertices, false⟩ :: escapes fates := rfl

@[simp] theorem escapes_half (half : HalfLoop α) (fates : List (SeedFate α)) :
    escapes (.half half :: fates) = escapes fates := rfl

/-- The half loop that waits after these. -/
def unpaired? (halves : List (HalfLoop α)) : Option (HalfLoop α) :=
  if halves.length % 2 = 1 then halves.getLast? else none

/-- Both halves one after the other, and the first vertex again. -/
def HalfLoop.oval (first second : HalfLoop α) : Branch α :=
  ⟨first.vertices ++ second.vertices ++ first.vertices.extract 0 1, true⟩

/-- The ovals of half loops that are paired in order: the first with the second, and so on. -/
def ovals : List (HalfLoop α) → List (Branch α)
  | first :: second :: rest => first.oval second :: ovals rest
  | _ => []

/-- The branch that a seed completes after seeds with the fates `before`. -/
def completed? (before : List (SeedFate α)) : SeedFate α → Option (Branch α)
  | .leftOut => none
  | .escaped vertices => some ⟨vertices, false⟩
  | .half second => (unpaired? (halves before)).map fun first => first.oval second

/-- The branches that seeds complete in order, after seeds with the fates `before`. -/
def completed (before : List (SeedFate α)) : List (SeedFate α) → List (Branch α)
  | [] => []
  | fate :: rest => (completed? before fate).toList ++ completed (before ++ [fate]) rest

/-! ### Pairing -/

theorem unpaired?_concat (before : List (HalfLoop α)) (half : HalfLoop α) :
    unpaired? (before ++ [half]) = if (unpaired? before).isSome then none else some half := by
  unfold unpaired?
  by_cases hodd : before.length % 2 = 1
  · have hne : before ≠ [] := by
      rintro rfl
      simp at hodd
    have heven : ¬ (before ++ [half]).length % 2 = 1 := by
      rw [List.length_append, List.length_singleton]
      omega
    rw [if_neg heven, if_pos hodd, List.getLast?_eq_some_getLast hne]
    rfl
  · have hnext : (before ++ [half]).length % 2 = 1 := by
      rw [List.length_append, List.length_singleton]
      omega
    rw [if_pos hnext, if_neg hodd]
    simp

theorem unpaired?_pair (first second : HalfLoop α) (rest : List (HalfLoop α)) :
    unpaired? (first :: second :: rest) = unpaired? rest := by
  unfold unpaired?
  simp only [List.length_cons]
  by_cases hodd : rest.length % 2 = 1
  · have hnext : (rest.length + 1 + 1) % 2 = 1 := by omega
    rw [if_pos hodd, if_pos hnext]
    cases rest with
    | nil => simp at hodd
    | cons third rest => simp [List.getLast?_cons_cons]
  · have hnext : ¬ (rest.length + 1 + 1) % 2 = 1 := by omega
    rw [if_neg hodd, if_neg hnext]

/-- A half loop is left exactly when their number is odd, and then it is the last. -/
theorem unpaired?_of_odd {halves : List (HalfLoop α)} (hodd : halves.length % 2 = 1) :
    ∃ half, halves.getLast? = some half ∧ unpaired? halves = some half := by
  have hne : halves ≠ [] := by
    rintro rfl
    simp at hodd
  refine ⟨halves.getLast hne, List.getLast?_eq_some_getLast hne, ?_⟩
  rw [unpaired?]
  rw [if_pos hodd, List.getLast?_eq_some_getLast hne]

theorem unpaired?_of_even {halves : List (HalfLoop α)} (heven : halves.length % 2 = 0) :
    unpaired? halves = none := by
  rw [unpaired?]
  rw [if_neg (by omega)]

theorem length_unpaired? (halves : List (HalfLoop α)) :
    (unpaired? halves).toList.length = halves.length % 2 := by
  obtain heven | hodd := Nat.mod_two_eq_zero_or_one halves.length
  · rw [unpaired?_of_even heven, heven]
    rfl
  · obtain ⟨half, -, hleft⟩ := unpaired?_of_odd hodd
    rw [hleft, hodd]
    rfl

theorem mem_of_unpaired? {halves : List (HalfLoop α)} {half : HalfLoop α}
    (h : unpaired? halves = some half) : half ∈ halves := by
  rw [unpaired?] at h
  split at h
  · exact List.mem_of_getLast? h
  · cases h

/-! ### The run over the seeds -/

namespace Stitching

theorem receive_spec (s : Stitching α) (before : List (SeedFate α)) (fate : SeedFate α)
    (hpending : s.pending? = unpaired? (halves before))
    (hsize : ∀ half ∈ halves before, 1 ≤ half.vertices.size) :
    (s.receive fate).pending? = unpaired? (halves (before ++ [fate])) ∧
      (s.receive fate).branches.toList = s.branches.toList ++ (completed? before fate).toList := by
  rw [halves_append]
  cases fate with
  | leftOut => simp [receive, completed?, hpending]
  | escaped vertices => simp [receive, completed?, addBranch, hpending]
  | half second =>
    rw [halves_half, halves_nil, unpaired?_concat]
    rw [receive, addHalfLoop, completed?]
    rw [hpending]
    cases hwaiting : unpaired? (halves before) with
    | none => simp
    | some first =>
      have hfirst : 1 ≤ first.vertices.size := hsize first (mem_of_unpaired? hwaiting)
      have haround :
          (first.vertices ++ second.vertices).extract 0 1 = first.vertices.extract 0 1 := by
        rw [Array.extract_append]
        simp
        omega
      simp [addBranch, HalfLoop.oval, haround]

/-- All fates: which half loop waits in the end, and the branches that are completed. -/
theorem foldl_receive_spec (fates : List (SeedFate α)) (s : Stitching α)
    (before : List (SeedFate α)) (hpending : s.pending? = unpaired? (halves before))
    (hsize : ∀ half ∈ halves (before ++ fates), 1 ≤ half.vertices.size) :
    (fates.foldl receive s).pending? = unpaired? (halves (before ++ fates)) ∧
      (fates.foldl receive s).branches.toList = s.branches.toList ++ completed before fates := by
  -- the history grows by each fate that is received
  induction fates generalizing s before with
  | nil => simpa [completed] using hpending
  | cons fate fates ih =>
    have hbefore : ∀ half ∈ halves before, 1 ≤ half.vertices.size := by
      intro half hhalf
      apply hsize
      rw [halves_append]
      exact List.mem_append_left _ hhalf
    obtain ⟨hnext, hbranches⟩ := s.receive_spec before fate hpending hbefore
    have hassoc : before ++ fate :: fates = before ++ [fate] ++ fates := by simp
    rw [hassoc] at hsize ⊢
    obtain ⟨hlast, hall⟩ := ih (s.receive fate) (before ++ [fate]) hnext hsize
    refine ⟨hlast, ?_⟩
    rw [List.foldl_cons, hall, hbranches, completed, List.append_assoc]

end Stitching

example (first second : HalfLoop α) (vertices : Array (Point α)) :
    completed [] [.half first, .leftOut, .escaped vertices, .half second] =
      [⟨vertices, false⟩, first.oval second] := rfl

/-! ### The completed branches -/

/-- The closed branches are the ovals of the half loops, the waiting one first. -/
theorem filter_closed_completed (before fates : List (SeedFate α)) :
    (completed before fates).filter (·.closed) =
      ovals ((unpaired? (halves before)).toList ++ halves fates) := by
  induction fates generalizing before with
  | nil => cases unpaired? (halves before) <;> simp [completed, ovals]
  | cons fate fates ih =>
    rw [completed, List.filter_append, ih, halves_append]
    cases fate with
    | leftOut => simp [completed?]
    | escaped vertices => simp [completed?]
    | half second =>
      rw [halves_half, halves_nil, halves_half, unpaired?_concat]
      cases h : unpaired? (halves before) with
      | none => simp [completed?, h]
      | some first => simp [completed?, h, HalfLoop.oval, ovals]

theorem filter_open_completed (before fates : List (SeedFate α)) :
    (completed before fates).filter (!·.closed) = escapes fates := by
  induction fates generalizing before with
  | nil => rfl
  | cons fate fates ih =>
    rw [completed, List.filter_append, ih]
    cases fate with
    | leftOut => simp [completed?]
    | escaped vertices => simp [completed?]
    | half second =>
      cases h : unpaired? (halves before) with
      | none => simp [completed?, h]
      | some first => simp [completed?, h, HalfLoop.oval]

/-! ### Counting -/

def vertexTotal (branches : List (Branch α)) : Nat := (branches.map (·.vertices.size)).sum

theorem vertexTotal_append (branches others : List (Branch α)) :
    vertexTotal (branches ++ others) = vertexTotal branches + vertexTotal others := by
  simp [vertexTotal]

theorem vertexCount_eq (t : Tessellation α) : t.vertexCount = vertexTotal t.branches.toList := by
  have hfold : ∀ (branches : List (Branch α)) (count : Nat),
      branches.foldl (fun count branch => count + branch.vertices.size) count
        = count + vertexTotal branches := by
    intro branches
    induction branches with
    | nil => simp [vertexTotal]
    | cons branch branches ih =>
      intro count
      rw [List.foldl_cons, ih]
      simp only [vertexTotal, List.map_cons, List.sum_cons]
      omega
  rw [Tessellation.vertexCount]
  rw [← Array.foldl_toList, hfold, Nat.zero_add]

theorem vertexTotal_split (branches : List (Branch α)) :
    vertexTotal branches =
      vertexTotal (branches.filter (·.closed)) + vertexTotal (branches.filter (!·.closed)) := by
  rw [← vertexTotal_append]
  have hperm := List.filter_append_perm (fun branch : Branch α => branch.closed) branches
  exact (hperm.map fun branch => branch.vertices.size).sum_eq.symm

theorem length_split (branches : List (Branch α)) :
    branches.length =
      (branches.filter (·.closed)).length + (branches.filter (!·.closed)).length := by
  rw [← List.length_append]
  exact (List.filter_append_perm (·.closed) branches).length_eq.symm

private theorem short_cases {halves : List (HalfLoop α)}
    (hshort : ∀ first second rest, halves = first :: second :: rest → False) :
    halves = [] ∨ ∃ first, halves = [first] := by
  cases halves with
  | nil => exact .inl rfl
  | cons first rest =>
    cases rest with
    | nil => exact .inr ⟨first, rfl⟩
    | cons second rest => exact absurd rfl (hshort first second rest)

theorem length_ovals (halves : List (HalfLoop α)) : (ovals halves).length = halves.length / 2 := by
  fun_induction ovals halves with
  | case1 first second rest ih =>
    simp only [List.length_cons, ih]
    omega
  | case2 halves hshort =>
    obtain rfl | ⟨first, rfl⟩ := short_cases hshort
    · simp
    · simp

theorem vertexTotal_ovals (halves : List (HalfLoop α))
    (hsize : ∀ half ∈ halves, 1 ≤ half.vertices.size) :
    vertexTotal (ovals halves) + vertexTotal ((unpaired? halves).toList.map HalfLoop.alone) =
      vertexTotal (halves.map HalfLoop.alone) + halves.length / 2 := by
  fun_induction ovals halves with
  | case1 first second rest ih =>
    have hrest := ih fun half hhalf => hsize half (by simp [hhalf])
    have hfirst : 1 ≤ first.vertices.size := hsize first (by simp)
    rw [unpaired?_pair]
    simp only [vertexTotal, List.map_cons, List.sum_cons, HalfLoop.oval, HalfLoop.alone,
      Array.size_append, Array.size_extract, List.length_cons] at hrest ⊢
    omega
  | case2 halves hshort =>
    obtain rfl | ⟨first, rfl⟩ := short_cases hshort
    · simp [vertexTotal, unpaired?]
    · simp [vertexTotal, unpaired?]

theorem sum_size_fates (fates : List (SeedFate α)) :
    (fates.map SeedFate.size).sum =
      vertexTotal (escapes fates) + vertexTotal ((halves fates).map HalfLoop.alone) := by
  induction fates with
  | nil => rfl
  | cons fate fates ih =>
    rw [List.map_cons, List.sum_cons, ih]
    cases fate with
    | leftOut => simp [SeedFate.size]
    | escaped vertices =>
      simp only [SeedFate.size, escapes_escaped, halves_escaped, vertexTotal, List.map_cons,
        List.sum_cons]
      omega
    | half second =>
      simp only [SeedFate.size, escapes_half, halves_half, vertexTotal, List.map_cons,
        List.sum_cons, HalfLoop.alone]
      omega

/-! ### Ends of ovals -/

/-- An oval of two half loops with two vertices each has five, and its last is its first. -/
theorem oval_ends (first second : HalfLoop α) (hfirst : 2 ≤ first.vertices.size)
    (hsecond : 2 ≤ second.vertices.size) :
    5 ≤ (first.oval second).vertices.size ∧
      (first.oval second).vertices.back? = (first.oval second).vertices[0]? := by
  have hpos : 0 < first.vertices.size := by omega
  have hhead : first.vertices.extract 0 1 = #[first.vertices[0]] := by
    apply Array.ext
    · simp only [Array.size_extract, List.size_toArray, List.length_singleton]
      omega
    · intro i hi hone
      have hzero : i = 0 := by simpa using hone
      subst hzero
      simp
  constructor
  · simp only [HalfLoop.oval, hhead, Array.size_append, List.size_toArray, List.length_singleton]
    omega
  · simp only [HalfLoop.oval, hhead]
    simp [hpos]

theorem mem_oval {first second : HalfLoop α} {v : Point α}
    (h : v ∈ (first.oval second).vertices) : v ∈ first.vertices ∨ v ∈ second.vertices := by
  obtain hhalves | hagain := Array.mem_append.mp h
  · exact Array.mem_append.mp hhalves
  · obtain ⟨place, -, rfl⟩ := Array.mem_extract_iff_getElem.mp hagain
    exact .inl (Array.getElem_mem _)

theorem mem_ovals {halves : List (HalfLoop α)} {branch : Branch α} (h : branch ∈ ovals halves) :
    ∃ first ∈ halves, ∃ second ∈ halves, branch = first.oval second := by
  fun_induction ovals halves with
  | case1 first second rest ih =>
    obtain rfl | h := List.mem_cons.mp h
    · exact ⟨first, by simp, second, by simp, rfl⟩
    · obtain ⟨third, hthird, fourth, hfourth, rfl⟩ := ih h
      exact ⟨third, by simp [hthird], fourth, by simp [hfourth], rfl⟩
  | case2 => cases h

/-! ### Tessellations -/

def Diagnostic.isUnmatched : Diagnostic α → Bool
  | .unmatchedHalfLoop .. => true
  | _ => false

namespace Plan

variable [Scalar α]

theorem isUnmatched_of_mem_reports {plan : Plan α} {seed : Point α} {diagnostic : Diagnostic α}
    (h : diagnostic ∈ plan.reports seed) : diagnostic.isUnmatched = false := by
  obtain ⟨route, -, hroute⟩ := List.mem_flatMap.mp h
  obtain hvisit | hending := List.mem_append.mp hroute
  · obtain ⟨visit, -, hreport⟩ := List.mem_filterMap.mp hvisit
    rw [Visit.report?] at hreport
    split at hreport
    · cases hreport
    · rw [← Option.some.inj hreport]
      rfl
  · unfold Ending.report? at hending
    split at hending
    · rw [List.mem_singleton.mp hending]
      rfl
    · cases hending

theorem size_fate (plan : Plan α) (seed : Point α) :
    (plan.fate seed).size = if plan.admits seed then 1 + plan.traced seed else 0 := by
  unfold fate admits traced
  dsimp only
  cases plan.embedding.place plan.config.minAffineZ seed.normalize with
  | outOfPlane => rfl
  | onBorder first => rfl
  | inside first =>
    rcases plan.trace seed.normalize plan.config.step with ⟨forward, _ | _⟩
    · simp [SeedFate.size, Placement.isInside]
      omega
    · simp [SeedFate.size, Placement.isInside]

/-- The half loops among the seeds, in order. -/
def halfLoops (plan : Plan α) : List (HalfLoop α) := halves plan.fates

/-- The half loop that is left in the end. -/
def left? (plan : Plan α) : Option (HalfLoop α) := unpaired? plan.halfLoops

/-- What stitching makes of the fates of a plan's seeds. -/
structure Stitched (plan : Plan α) (t : Tessellation α) : Prop where
  /-- Each seed completes its branch in its turn; a half loop that is left comes last. -/
  branches : t.branches.toList = completed [] plan.fates ++ plan.left?.toList.map HalfLoop.alone
  /-- The closed branches are the half loops, paired in order. -/
  closed : t.branches.toList.filter (·.closed) = ovals plan.halfLoops
  /-- The other branches are those of the escaped seeds, in order, and what is left. -/
  opened : t.branches.toList.filter (!·.closed) =
    escapes plan.fates ++ plan.left?.toList.map HalfLoop.alone
  ends : ∀ branch ∈ t.branches, branch.closed = true →
    5 ≤ branch.vertices.size ∧ branch.vertices.back? = branch.vertices[0]?
  odd : plan.halfLoops.length % 2 = 1 →
    ∃ half, plan.halfLoops.getLast? = some half ∧ t.branches.back? = some half.alone ∧
      t.diagnostics.back? = some half.report ∧
      t.diagnostics.toList.filter Diagnostic.isUnmatched = [half.report]
  even : plan.halfLoops.length % 2 = 0 →
    t.diagnostics.toList.filter Diagnostic.isUnmatched = []
  branchCount : t.branches.size =
    (escapes plan.fates).length + (plan.halfLoops.length + 1) / 2
  vertexCount : t.vertexCount =
    ((plan.curve.seeds.filter plan.admits).map fun seed => 1 + plan.traced seed).sum +
      plan.halfLoops.length / 2

theorem exists_seed_of_mem_halfLoops {plan : Plan α} {half : HalfLoop α}
    (h : half ∈ plan.halfLoops) : ∃ seed ∈ plan.curve.seeds, plan.fate seed = .half half := by
  obtain ⟨fate, hfate, hhalf⟩ := List.mem_filterMap.mp h
  obtain ⟨seed, hseed, rfl⟩ := List.mem_map.mp hfate
  refine ⟨seed, hseed, ?_⟩
  cases hcase : plan.fate seed with
  | half second =>
    rw [hcase] at hhalf
    rw [Option.some.inj hhalf]
  | _ =>
    rw [hcase] at hhalf
    cases hhalf

theorem exists_seed_of_mem_escapes {plan : Plan α} {branch : Branch α}
    (h : branch ∈ escapes plan.fates) :
    ∃ seed ∈ plan.curve.seeds, plan.fate seed = .escaped branch.vertices ∧
      branch = ⟨branch.vertices, false⟩ := by
  obtain ⟨fate, hfate, hbranch⟩ := List.mem_filterMap.mp h
  obtain ⟨seed, hseed, rfl⟩ := List.mem_map.mp hfate
  refine ⟨seed, hseed, ?_⟩
  cases hcase : plan.fate seed with
  | escaped vertices =>
    rw [hcase] at hbranch
    rw [← Option.some.inj hbranch]
    exact ⟨rfl, rfl⟩
  | _ =>
    rw [hcase] at hbranch
    cases hbranch

/-- How a branch comes from the fates of seeds. -/
inductive Origin (plan : Plan α) : Branch α → Prop
  | oval {seed other : Point α} {first second : HalfLoop α} (hseed : seed ∈ plan.curve.seeds)
    (hother : other ∈ plan.curve.seeds) (hfirst : plan.fate seed = .half first)
    (hsecond : plan.fate other = .half second) : Origin plan (first.oval second)
  | escaped {seed : Point α} {vertices : Array (Point α)} (hseed : seed ∈ plan.curve.seeds)
    (hfate : plan.fate seed = .escaped vertices) : Origin plan ⟨vertices, false⟩
  | left {seed : Point α} {half : HalfLoop α} (hseed : seed ∈ plan.curve.seeds)
    (hfate : plan.fate seed = .half half) (hleft : plan.left? = some half) :
    Origin plan half.alone

theorem Stitched.origin {plan : Plan α} {t : Tessellation α} (hstitched : plan.Stitched t)
    {branch : Branch α} (hmem : branch ∈ t.branches) : plan.Origin branch := by
  cases hclosed : branch.closed with
  | true =>
    have hoval : branch ∈ ovals plan.halfLoops := by
      rw [← hstitched.closed]
      exact List.mem_filter.mpr ⟨hmem.val, hclosed⟩
    obtain ⟨first, hfirst, second, hsecond, rfl⟩ := mem_ovals hoval
    obtain ⟨seed, hseed, hfate⟩ := exists_seed_of_mem_halfLoops hfirst
    obtain ⟨other, hother, hotherFate⟩ := exists_seed_of_mem_halfLoops hsecond
    exact .oval hseed hother hfate hotherFate
  | false =>
    have hopen : branch ∈ t.branches.toList.filter (!·.closed) :=
      List.mem_filter.mpr ⟨hmem.val, by rw [hclosed]; rfl⟩
    rw [hstitched.opened] at hopen
    obtain hescaped | hleft := List.mem_append.mp hopen
    · obtain ⟨seed, hseed, hfate, hform⟩ := exists_seed_of_mem_escapes hescaped
      rw [hform]
      exact .escaped hseed hfate
    · obtain ⟨half, hhalf, rfl⟩ := List.mem_map.mp hleft
      obtain ⟨seed, hseed, hfate⟩ :=
        exists_seed_of_mem_halfLoops (mem_of_unpaired? (Option.mem_toList.mp hhalf))
      exact .left hseed hfate (Option.mem_toList.mp hhalf)

theorem Stitched.mem_of_escaped {plan : Plan α} {t : Tessellation α}
    (hstitched : plan.Stitched t) {seed : Point α} (hseed : seed ∈ plan.curve.seeds)
    {vertices : Array (Point α)} (hfate : plan.fate seed = .escaped vertices) :
    ⟨vertices, false⟩ ∈ t.branches := by
  have hescapes : ⟨vertices, false⟩ ∈ escapes plan.fates :=
    List.mem_filterMap.mpr ⟨_, List.mem_map_of_mem hseed, by rw [hfate]; rfl⟩
  have hopen : ⟨vertices, false⟩ ∈ t.branches.toList.filter (!·.closed) := by
    rw [hstitched.opened]
    exact List.mem_append_left _ hescapes
  exact Array.mem_toList_iff.mp (List.mem_filter.mp hopen).1

theorem two_le_of_mem_halfLoops {plan : Plan α} {half : HalfLoop α}
    (h : half ∈ plan.halfLoops) : 2 ≤ half.vertices.size := by
  obtain ⟨seed, -, hfate⟩ := exists_seed_of_mem_halfLoops h
  exact two_le_size_of_half hfate

/-- The half loops wait and the branches are completed as the fates say. -/
theorem stitched_spec (plan : Plan α) :
    plan.stitched.pending? = plan.left? ∧
      plan.stitched.branches.toList = completed [] plan.fates := by
  have hsize : ∀ half ∈ halves ([] ++ plan.fates), 1 ≤ half.vertices.size := by
    intro half hhalf
    have htwo : 2 ≤ half.vertices.size := two_le_of_mem_halfLoops hhalf
    omega
  exact Stitching.foldl_receive_spec _ .empty [] rfl hsize

theorem branches_tessellate (plan : Plan α) : plan.tessellate.value.branches.toList =
    completed [] plan.fates ++ plan.left?.toList.map HalfLoop.alone := by
  obtain ⟨hpending, hcompleted⟩ := plan.stitched_spec
  rw [tessellate_eq, ← hpending, ← hcompleted]
  simp

theorem diagnostics_tessellate (plan : Plan α) : plan.tessellate.value.diagnostics.toList =
    plan.curve.seeds.flatMap plan.reports ++ plan.left?.toList.map HalfLoop.report := by
  rw [tessellate_eq, plan.stitched_spec.1]

theorem closed_tessellate (plan : Plan α) :
    plan.tessellate.value.branches.toList.filter (·.closed) = ovals plan.halfLoops := by
  rw [branches_tessellate, List.filter_append, filter_closed_completed]
  have hleft : (plan.left?.toList.map HalfLoop.alone).filter (·.closed) = [] := by
    cases plan.left? <;> simp [HalfLoop.alone]
  rw [hleft, List.append_nil]
  rfl

theorem opened_tessellate (plan : Plan α) :
    plan.tessellate.value.branches.toList.filter (!·.closed) =
      escapes plan.fates ++ plan.left?.toList.map HalfLoop.alone := by
  rw [branches_tessellate, List.filter_append, filter_open_completed]
  cases plan.left? <;> simp [HalfLoop.alone]

/-- Nothing is reported as unmatched but the half loop that is left. -/
theorem unmatched_tessellate (plan : Plan α) :
    plan.tessellate.value.diagnostics.toList.filter Diagnostic.isUnmatched =
      plan.left?.toList.map HalfLoop.report := by
  have hseeds : (plan.curve.seeds.flatMap plan.reports).filter Diagnostic.isUnmatched = [] := by
    rw [List.filter_eq_nil_iff]
    intro diagnostic hmem
    obtain ⟨seed, -, hreport⟩ := List.mem_flatMap.mp hmem
    simp [isUnmatched_of_mem_reports hreport]
  rw [diagnostics_tessellate, List.filter_append, hseeds, List.nil_append]
  cases plan.left? <;> rfl

theorem sum_size_fate (plan : Plan α) (seeds : List (Point α)) :
    ((seeds.map plan.fate).map SeedFate.size).sum =
      ((seeds.filter plan.admits).map fun seed => 1 + plan.traced seed).sum := by
  induction seeds with
  | nil => rfl
  | cons seed seeds ih =>
    rw [List.map_cons, List.map_cons, List.sum_cons, ih, size_fate, List.filter_cons]
    by_cases hadmits : plan.admits seed = true
    · simp [hadmits]
    · simp [hadmits]

theorem vertexCount_tessellate (plan : Plan α) : plan.tessellate.value.vertexCount =
    ((plan.curve.seeds.filter plan.admits).map fun seed => 1 + plan.traced seed).sum +
      plan.halfLoops.length / 2 := by
  have hsize : ∀ half ∈ plan.halfLoops, 1 ≤ half.vertices.size :=
    fun half hhalf => Nat.le_of_succ_le (two_le_of_mem_halfLoops hhalf)
  have hovals : vertexTotal (ovals plan.halfLoops) +
      vertexTotal (plan.left?.toList.map HalfLoop.alone) = _ := vertexTotal_ovals _ hsize
  have hsizes : (plan.fates.map SeedFate.size).sum = vertexTotal (escapes plan.fates) +
      vertexTotal (plan.halfLoops.map HalfLoop.alone) := sum_size_fates plan.fates
  rw [fates, sum_size_fate, ← fates] at hsizes
  rw [vertexCount_eq, vertexTotal_split, closed_tessellate, opened_tessellate, vertexTotal_append,
    hsizes]
  omega

theorem stitched_tessellate (plan : Plan α) : plan.Stitched plan.tessellate.value := by
  refine ⟨plan.branches_tessellate, plan.closed_tessellate, plan.opened_tessellate, ?ends, ?odd,
    ?even, ?branchCount, plan.vertexCount_tessellate⟩
  case ends =>
    intro branch hmem hclosed
    have hoval : branch ∈ ovals plan.halfLoops := by
      rw [← closed_tessellate]
      exact List.mem_filter.mpr ⟨hmem.val, hclosed⟩
    obtain ⟨first, hfirst, second, hsecond, rfl⟩ := mem_ovals hoval
    exact oval_ends first second (two_le_of_mem_halfLoops hfirst) (two_le_of_mem_halfLoops hsecond)
  case odd =>
    intro hodd
    obtain ⟨half, hlast, hleft⟩ := unpaired?_of_odd hodd
    refine ⟨half, hlast, ?_, ?_, ?_⟩
    · rw [← Array.getLast?_toList, branches_tessellate, left?, hleft]
      simp
    · rw [← Array.getLast?_toList, diagnostics_tessellate, left?, hleft]
      simp
    · rw [unmatched_tessellate, left?, hleft]
      rfl
  case even =>
    intro heven
    rw [unmatched_tessellate, left?, unpaired?_of_even heven]
    rfl
  case branchCount =>
    rw [← Array.length_toList, length_split, closed_tessellate, opened_tessellate,
      List.length_append, List.length_map, length_ovals, left?, length_unpaired?]
    omega

theorem tessellateWith_eq (curve : Curve α) (embedding : Embedding α) (config : TraceConfig α)
    (hvalid : config.isValid = true) :
    curve.tessellateWith embedding config = .ok (Plan.mk curve embedding config).tessellate := by
  rw [Curve.tessellateWith, check, TraceConfig.validate, if_pos hvalid]
  rfl

/-- A valid configuration gives a tessellation, and it is stitched as the fates of the seeds say. -/
theorem tessellateWith_stitched (curve : Curve α) (embedding : Embedding α)
    (config : TraceConfig α) (hvalid : config.isValid = true) :
    ∃ t, curve.tessellateWith embedding config = .ok t ∧
      (Plan.mk curve embedding config).Stitched t.value :=
  ⟨_, tessellateWith_eq curve embedding config hvalid, stitched_tessellate _⟩

/-- The curve `y² = x³ - 1.75 x - 0.75` in doubles, in a window that holds its oval. The third seed
is left out, and the half loops of the first two are joined to a closed branch. -/
theorem stitched_oval :
    let curve : Curve Float := ⟨.weierstrass (-1.75) (-0.75),
      [⟨-1.0, 0.0, 1.0⟩, ⟨-0.5, 0.0, 1.0⟩, ⟨1.5, 0.0, 1.0⟩]⟩
    let config : TraceConfig Float :=
      { TraceConfig.default with step := 0.5, vertexTolerance := 0.01 }
    let plan : Plan Float := ⟨curve, .affine 1.25, config⟩
    config.isValid = true ∧
      ∃ t, curve.tessellateWith (.affine 1.25) config = .ok t ∧ plan.Stitched t.value ∧
        t.value.diagnostics.isEmpty = true ∧
        ∃ first second, plan.halfLoops = [first, second] ∧
          t.value.branches.toList = [first.oval second] ∧
          (first.oval second).vertices.size = 7 := by
  intro curve config plan
  have hvalid : config.isValid = true := by decide +kernel
  have htraced : plan.tessellate.value.diagnostics.isEmpty = true ∧
      plan.tessellate.value.branches.toList.map
        (fun branch => (branch.closed, branch.vertices.size)) = [(true, 7)] := by decide +kernel
  obtain ⟨t, ht, (hstitched : plan.Stitched t.value)⟩ :=
    tessellateWith_stitched curve (.affine 1.25) config hvalid
  have htessellate : plan.tessellate = t := by
    rw [tessellateWith_eq curve (.affine 1.25) config hvalid] at ht
    exact Except.ok.inj ht
  rw [htessellate] at htraced
  obtain ⟨hdiagnostics, hbranches⟩ := htraced
  obtain ⟨branch, hbranch, hform⟩ := List.map_eq_singleton_iff.mp hbranches
  obtain ⟨hclosed, hsize⟩ := Prod.mk.inj hform
  have hovals : ovals plan.halfLoops = [branch] := by
    rw [← hstitched.closed, hbranch, List.filter_cons_of_pos hclosed, List.filter_nil]
  -- one closed branch and no other one: two half loops
  have hlength : plan.halfLoops.length = 2 := by
    have hpairs := congrArg List.length hovals
    have hcount := hstitched.branchCount
    rw [← Array.length_toList, hbranch, List.length_singleton] at hcount
    rw [length_ovals, List.length_singleton] at hpairs
    omega
  obtain ⟨first, second, hhalves⟩ := List.length_eq_two.mp hlength
  rw [hhalves] at hovals
  obtain rfl : first.oval second = branch := List.head_eq_of_cons_eq hovals
  exact ⟨hvalid, t, ht, hstitched, hdiagnostics, first, second, hhalves, hbranch, hsize⟩

end Plan

end EllipticPlot
