import Mathlib.Data.List.TakeWhile
import QueryBatch.Proofs.Rules.Context
import QueryBatch.Rules.Fragments

/-!
# The cycle search

* `Context.Way`: steps from fragment to fragment. `closed_of_mem_cycles`: every cycle that is found is a way that comes
  back to where it starts, so nothing is found where no fragment leads to itself.
* `CycleSearch.Inv`: the fragments that a search has left behind lead to no cycle of guarded ones, as long as no cycle
  that was found goes through a guarded one. `sound_cyclesFrom`: the search keeps this up.
* `acc_of_cycles`: so below a guarded name all spreads of guarded names come to an end.
* `exists_rejected_of_leadsTo`: of the fragments that lead to one another in a circle one is rejected.
* `acyclicFragments_eq_nil_iff`: the rule on cycles finds nothing just if no fragment reaches itself.
* `cycles_reported`: what the rule on cycles reports, and what it rejects.
-/

namespace QueryBatch.Rules

/-! ## One step -/

section Steps

variable {way path : List Step} {step : Step} {target : String}

theorem closedPart_eq_nil_iff : closedPart way target = [] ↔ ∀ step ∈ way, step.inside ≠ target := by
  unfold closedPart
  rw [List.dropWhile_eq_nil_iff]
  simp

/-- The last step of a way is on every cycle that the way closes. -/
theorem mem_closedPart (h : closedPart (path ++ [step]) target ≠ []) : step ∈ closedPart (path ++ [step]) target := by
  unfold closedPart at h ⊢
  rw [List.dropWhile_append] at h ⊢
  split at h
  · rename_i hempty
    rw [if_pos hempty]
    rw [List.dropWhile_cons] at h ⊢
    split at h
    · exact absurd rfl h
    · rename_i hstop
      rw [if_neg hstop]
      exact List.mem_singleton_self step
  · rename_i hmore
    rw [if_neg hmore]
    exact List.mem_append_right _ (List.mem_singleton_self step)

theorem mem_stepsOf {s : Subject} {frag : Fragment} :
    step ∈ stepsOf s frag ↔ ∃ spread ∈ frag.body.spreads, ⟨frag.name.text, s, spread⟩ = step := List.mem_map

end Steps

/-- Goes one step further, by a search that has `room` left. -/
def goOn (cx : Context) (room : Nat) (path : List Step) (state : List (List Step) × List String) (step : Step) :
    List (List Step) × List String :=
  let way := path ++ [step]
  match closedPart way step.target, cx.fragment? step.target with
  | [], some (next, nextFrag) =>
    let (more, seen) := cyclesFrom cx room way state.2 next nextFrag
    (state.1 ++ more, seen)
  | [], none => state
  | cycle, _ => (state.1 ++ [cycle], state.2)

/-- Searches from one fragment more. -/
def searchFrom (cx : Context) (state : List (List Step) × List String) (start : Subject × Fragment) :
    List (List Step) × List String :=
  let search := cyclesFrom cx (cx.fragments.length + 1) [] state.2 start.1 start.2
  (state.1 ++ search.1, search.2)

theorem cycles_eq (cx : Context) :
    cycles cx = ((cx.fragmentNames.filterMap cx.fragment?).foldl (searchFrom cx) ([], [])).1 := rfl

section Search

variable {cx : Context} {room : Nat} {path : List Step} {seen : List String} {s : Subject} {frag : Fragment}
  {state : List (List Step) × List String} {step : Step}

theorem cyclesFrom_of_seen (h : frag.name.text ∈ seen) : cyclesFrom cx (room + 1) path seen s frag = ([], seen) := by
  rw [cyclesFrom, if_pos h]

theorem cyclesFrom_of_new (h : frag.name.text ∉ seen) :
    cyclesFrom cx (room + 1) path seen s frag =
      (stepsOf s frag).foldl (goOn cx room path) ([], frag.name.text :: seen) := by
  rw [cyclesFrom, if_neg h]
  rfl

/-- What a step does: it closes a cycle, leads to a fragment, or leads nowhere. -/
theorem goOn_cases (cx : Context) (room : Nat) (path : List Step) (state : List (List Step) × List String)
    (step : Step) :
    (closedPart (path ++ [step]) step.target ≠ [] ∧
      goOn cx room path state step = (state.1 ++ [closedPart (path ++ [step]) step.target], state.2)) ∨
    (closedPart (path ++ [step]) step.target = [] ∧ ∃ next nextFrag,
      cx.fragment? step.target = some (next, nextFrag) ∧
      goOn cx room path state step =
        (state.1 ++ (cyclesFrom cx room (path ++ [step]) state.2 next nextFrag).1,
          (cyclesFrom cx room (path ++ [step]) state.2 next nextFrag).2)) ∨
    (closedPart (path ++ [step]) step.target = [] ∧ cx.fragment? step.target = none ∧
      goOn cx room path state step = state) := by
  unfold goOn
  dsimp only
  split
  · rename_i next nextFrag hclosed hfound
    exact .inr (.inl ⟨hclosed, next, nextFrag, hfound, rfl⟩)
  · rename_i hclosed hfound
    exact .inr (.inr ⟨hclosed, hfound, rfl⟩)
  · rename_i hcycle hstop
    have hne : closedPart (path ++ [step]) step.target ≠ [] := by
      intro hnil
      cases hfound : cx.fragment? step.target with
      | none => exact hstop hnil hfound
      | some next => exact hcycle next.1 next.2 hnil hfound
    exact .inl ⟨hne, rfl⟩

/-- A step keeps the cycles that were found. -/
theorem found_subset_goOn : state.1 ⊆ (goOn cx room path state step).1 := by
  rcases goOn_cases cx room path state step with ⟨-, h⟩ | ⟨-, _, _, -, h⟩ | ⟨-, -, h⟩
  · rw [h]
    exact List.subset_append_left _ _
  · rw [h]
    exact List.subset_append_left _ _
  · rw [h]
    exact List.Subset.refl _

theorem found_subset_foldl (steps : List Step) : state.1 ⊆ (steps.foldl (goOn cx room path) state).1 := by
  induction steps generalizing state with
  | nil => exact List.Subset.refl _
  | cons step rest ih => exact List.Subset.trans found_subset_goOn ih

theorem found_subset_foldl_searchFrom (starts : List (Subject × Fragment)) :
    state.1 ⊆ (starts.foldl (searchFrom cx) state).1 := by
  induction starts generalizing state with
  | nil => exact List.Subset.refl _
  | cons start rest ih =>
    have hstep : state.1 ⊆ (searchFrom cx state start).1 := List.subset_append_left _ _
    exact List.Subset.trans hstep ih

/-! ## Cycles that are found -/

/-- A step is written where it says: its spread stands in the fragment that its name stands for. -/
def Step.Written (cx : Context) (step : Step) : Prop :=
  ∃ frag, cx.fragment? step.inside = some (step.subject, frag) ∧ step.spread ∈ frag.body.spreads

/-- Steps that lead from the fragment of one name to another name. Each is written in the fragment that the one before
it leads to. -/
inductive Context.Way (cx : Context) : List Step → String → String → Prop
  | nil {name : String} : Way cx [] name name
  | cons {step : Step} {rest : List Step} {last : String} : step.Written cx → Way cx rest step.target last →
      Way cx (step :: rest) step.inside last

/-- A way that comes back to the fragment that it starts from. -/
def Context.ClosedWay (cx : Context) (steps : List Step) : Prop := steps ≠ [] ∧ ∃ name, cx.Way steps name name

section Ways

variable {more steps : List Step} {start name last : String}

theorem Context.Way.append (h : cx.Way steps start name) (h' : cx.Way more name last) :
    cx.Way (steps ++ more) start last := by
  induction h with
  | nil => exact h'
  | cons hstep _ ih => exact .cons hstep (ih h')

/-- The last part of a way is a way. -/
theorem Context.Way.exists_of_append (h : cx.Way (steps ++ more) start last) : ∃ name, cx.Way more name last := by
  induction steps generalizing start with
  | nil => exact ⟨start, h⟩
  | cons step rest ih =>
    cases h with
    | cons _ h => exact ih h

/-- The part of a way that a search finds to be closed is a closed way. -/
theorem Context.Way.closedPart (h : cx.Way way start target) (hne : closedPart way target ≠ []) :
    cx.ClosedWay (closedPart way target) := by
  refine ⟨hne, ?_⟩
  unfold Rules.closedPart at hne ⊢
  rw [← List.takeWhile_append_dropWhile (p := fun step : Step => step.inside != target) (l := way)] at h
  obtain ⟨name, hway⟩ := h.exists_of_append
  have hhead := List.head_dropWhile_not (fun step : Step => step.inside != target) hne
  generalize way.dropWhile (fun step => step.inside != target) = part at hway hne hhead
  cases hway with
  | nil => exact absurd rfl hne
  | @cons step rest _ hstep hrest =>
    have hinside : step.inside = target := by simpa using hhead
    rw [← hinside] at hrest
    exact ⟨step.inside, .cons hstep hrest⟩

/-- A way to the name of a fragment makes its start lead there. -/
theorem Context.Way.leadsTo (h : cx.Way steps start last) (hne : steps ≠ []) (hlast : (cx.bodyOf last).isSome = true) :
    LeadsTo cx.bodyOf start last := by
  induction h with
  | nil => exact absurd rfl hne
  | @cons step rest last hstep hrest ih =>
    obtain ⟨frag, hfound, hspread⟩ := hstep
    have hnext : (cx.bodyOf step.target).isSome = true → LeadsTo cx.bodyOf step.inside step.target := by
      intro hsome
      obtain ⟨inner, hinner⟩ := Option.isSome_iff_exists.1 hsome
      exact ⟨frag.body, Context.bodyOf_eq hfound, .spread hspread hinner⟩
    generalize step.target = name at hnext hrest ih
    cases hrest with
    | nil => exact hnext hlast
    | cons hnow _ =>
      obtain ⟨_, hfound', -⟩ := hnow
      exact (hnext (by rw [Context.bodyOf_eq hfound']; rfl)).trans (ih (List.cons_ne_nil _ _) hlast)

/-- Where a closed way starts, a fragment leads to itself. -/
theorem Context.ClosedWay.exists_leadsTo (h : cx.ClosedWay steps) : ∃ name, LeadsTo cx.bodyOf name name := by
  obtain ⟨hne, name, hway⟩ := h
  refine ⟨name, hway.leadsTo hne ?_⟩
  cases hway with
  | nil => exact absurd rfl hne
  | cons hstep _ =>
    obtain ⟨frag, hfound, -⟩ := hstep
    rw [Context.bodyOf_eq hfound]
    rfl

theorem Context.Way.written (h : cx.Way steps start last) : ∀ step ∈ steps, step.Written cx := by
  induction h with
  | nil => exact fun _ h => absurd h List.not_mem_nil
  | cons hstep _ ih => exact List.forall_mem_cons.2 ⟨hstep, ih⟩

end Ways

/-- A search whose path leads to the fragment that it starts from finds closed ways only. -/
theorem closed_of_mem_cyclesFrom (hfrag : cx.fragment? frag.name.text = some (s, frag)) {start : String}
    (hpath : cx.Way path start frag.name.text) :
    ∀ cycle ∈ (cyclesFrom cx room path seen s frag).1, cx.ClosedWay cycle := by
  induction room generalizing path seen s frag with
  | zero => exact fun _ h => absurd h List.not_mem_nil
  | succ room ih =>
    by_cases hseen : frag.name.text ∈ seen
    · rw [cyclesFrom_of_seen hseen]
      exact fun _ h => absurd h List.not_mem_nil
    · rw [cyclesFrom_of_new hseen]
      refine List.foldlRecOn (motive := fun state : List (List Step) × List String =>
        ∀ cycle ∈ state.1, cx.ClosedWay cycle) _ _ (fun _ h => absurd h List.not_mem_nil) ?_
      intro state hstate step hstep
      obtain ⟨spread, hspread, rfl⟩ := mem_stepsOf.1 hstep
      have hway : cx.Way (path ++ [⟨frag.name.text, s, spread⟩]) start spread.name.text :=
        hpath.append (.cons ⟨frag, hfrag, hspread⟩ .nil)
      rcases goOn_cases cx room path state ⟨frag.name.text, s, spread⟩ with
        ⟨hclosed, h⟩ | ⟨-, next, nextFrag, hfound, h⟩ | ⟨-, -, h⟩
      · rw [h]
        refine List.forall_mem_append.2 ⟨hstate, fun cycle hcycle => ?_⟩
        cases List.mem_singleton.1 hcycle
        exact hway.closedPart hclosed
      · rw [h]
        have hname := Context.name_of_fragment? hfound
        change nextFrag.name.text = spread.name.text at hname
        rw [← hname] at hway
        exact List.forall_mem_append.2 ⟨hstate, ih (by rw [hname]; exact hfound) hway⟩
      · rw [h]
        exact hstate

/-- Every cycle that is found is a closed way. -/
theorem closed_of_mem_cycles : ∀ cycle ∈ cycles cx, cx.ClosedWay cycle := by
  rw [cycles_eq]
  refine List.foldlRecOn (motive := fun state : List (List Step) × List String =>
    ∀ cycle ∈ state.1, cx.ClosedWay cycle) _ _ (fun _ h => absurd h List.not_mem_nil) ?_
  rintro state hstate ⟨s, frag⟩ hmem
  obtain ⟨name, -, hfound⟩ := List.mem_filterMap.1 hmem
  rw [← Context.name_of_fragment? hfound] at hfound
  exact List.forall_mem_append.2 ⟨hstate, closed_of_mem_cyclesFrom hfound .nil⟩

/-! ## What a search leaves behind -/

namespace CycleSearch

/-- Some names are guarded by owners: their fragments belong to these. -/
def Guards (cx : Context) (owners : Owner → Prop) (guarded : String → Prop) : Prop :=
  ∀ name s frag, guarded name → cx.fragment? name = some (s, frag) → owners s.owner

/-- No cycle that was found goes through an owner. -/
def Avoids (owners : Owner → Prop) (found : List (List Step)) : Prop :=
  ∀ cycle ∈ found, ∀ step ∈ cycle, ¬ owners step.subject.owner

theorem Avoids.mono {owners : Owner → Prop} {found found' : List (List Step)} (h : Avoids owners found')
    (hsub : found ⊆ found') : Avoids owners found := fun cycle hc => h cycle (hsub hc)

/-- The invariant of a search that stands inside the fragments `inside`: below every guarded name that it has seen and
left behind, all spreads of guarded names come to an end. -/
def Inv (cx : Context) (guarded : String → Prop) (inside seen : List String) : Prop :=
  ∀ name ∈ seen, guarded name → name ∈ inside ∨ Acc (SpreadAmong cx.bodyOf guarded) name

variable {owners : Owner → Prop} {guarded : String → Prop} {inside : List String}

/-- Searches with this much room, as long as fewer names are left to meet and no cycle they find goes through an owner,
keep the invariant, forget no name, and see the fragment they start from. -/
def Sound (cx : Context) (owners : Owner → Prop) (guarded : String → Prop) (room : Nat) : Prop :=
  ∀ path seen s frag, cx.fragment? frag.name.text = some (s, frag) → unseen cx.names seen < room →
    Inv cx guarded (path.map Step.inside) seen → Avoids owners (cyclesFrom cx room path seen s frag).1 →
    Inv cx guarded (path.map Step.inside) (cyclesFrom cx room path seen s frag).2 ∧
      seen ⊆ (cyclesFrom cx room path seen s frag).2 ∧ frag.name.text ∈ (cyclesFrom cx room path seen s frag).2

/-- Going one step further keeps the invariant. If the step leads from one guarded name to another, then below that one
all spreads of guarded names come to an end. -/
theorem inv_goOn (hg : Guards cx owners guarded) (hsound : Sound cx owners guarded room)
    (hfrag : cx.fragment? frag.name.text = some (s, frag)) (hstep : step ∈ stepsOf s frag)
    (hroom : unseen cx.names state.2 < room)
    (hinv : Inv cx guarded (path.map Step.inside ++ [frag.name.text]) state.2)
    (havoids : Avoids owners (goOn cx room path state step).1) :
    Inv cx guarded (path.map Step.inside ++ [frag.name.text]) (goOn cx room path state step).2 ∧
      state.2 ⊆ (goOn cx room path state step).2 ∧
      (guarded frag.name.text → guarded step.target → (cx.bodyOf step.target).isSome = true →
        Acc (SpreadAmong cx.bodyOf guarded) step.target) := by
  obtain ⟨spread, hspread, rfl⟩ := mem_stepsOf.1 hstep
  have hnames : (path ++ [(⟨frag.name.text, s, spread⟩ : Step)]).map Step.inside =
      path.map Step.inside ++ [frag.name.text] := by
    rw [List.map_append]
    rfl
  rcases goOn_cases cx room path state ⟨frag.name.text, s, spread⟩ with
    ⟨hclosed, h⟩ | ⟨hopen, next, nextFrag, hfound, h⟩ | ⟨-, hnone, h⟩
  · -- the step is on a cycle that was found, so its fragment is not guarded
    rw [h] at havoids ⊢
    refine ⟨hinv, List.Subset.refl _, fun hguarded _ _ => ?_⟩
    have hcycle := havoids _ (List.mem_append_right _ (List.mem_singleton_self _)) _ (mem_closedPart hclosed)
    exact absurd (hg _ _ _ hguarded hfrag) hcycle
  · rw [h] at havoids ⊢
    have hname : nextFrag.name.text = spread.name.text := Context.name_of_fragment? hfound
    rw [← hnames] at hinv ⊢
    obtain ⟨hinv', hseen, htarget⟩ := hsound _ _ next nextFrag (by rw [hname]; exact hfound) hroom hinv
      (havoids.mono (List.subset_append_right _ _))
    refine ⟨hinv', hseen, fun _ hinner _ => ?_⟩
    rw [hname] at htarget
    -- the step closed no cycle, so it does not lead back to where the search stands
    refine (hinv' _ htarget hinner).resolve_left fun hinside => ?_
    obtain ⟨other, hother, he⟩ := List.mem_map.1 hinside
    exact closedPart_eq_nil_iff.1 hopen other hother he
  · rw [h] at havoids ⊢
    refine ⟨hinv, List.Subset.refl _, fun _ _ hsome => ?_⟩
    rw [Context.bodyOf_eq_none hnone] at hsome
    cases hsome

/-- Going along some of the steps out of a fragment keeps the invariant. -/
theorem inv_foldl_goOn (hg : Guards cx owners guarded) (hsound : Sound cx owners guarded room)
    (hfrag : cx.fragment? frag.name.text = some (s, frag)) (steps : List Step) (hsteps : steps ⊆ stepsOf s frag)
    (hroom : unseen cx.names state.2 < room)
    (hinv : Inv cx guarded (path.map Step.inside ++ [frag.name.text]) state.2)
    (havoids : Avoids owners (steps.foldl (goOn cx room path) state).1) :
    Inv cx guarded (path.map Step.inside ++ [frag.name.text]) (steps.foldl (goOn cx room path) state).2 ∧
      state.2 ⊆ (steps.foldl (goOn cx room path) state).2 ∧
      ∀ step ∈ steps, guarded frag.name.text → guarded step.target → (cx.bodyOf step.target).isSome = true →
        Acc (SpreadAmong cx.bodyOf guarded) step.target := by
  induction steps generalizing state with
  | nil => exact ⟨hinv, List.Subset.refl _, fun _ h => absurd h List.not_mem_nil⟩
  | cons step rest ih =>
    rw [List.foldl_cons] at havoids ⊢
    obtain ⟨hinv', hseen, htarget⟩ := inv_goOn hg hsound hfrag (hsteps List.mem_cons_self) hroom hinv
      (havoids.mono (found_subset_foldl rest))
    have hroom' := Nat.lt_of_le_of_lt (unseen_mono hseen) hroom
    obtain ⟨hinv'', hseen', htargets⟩ := ih (fun _ h => hsteps (List.mem_cons_of_mem _ h)) hroom' hinv' havoids
    refine ⟨hinv'', List.Subset.trans hseen hseen', fun other hother => ?_⟩
    rcases List.mem_cons.1 hother with rfl | hother
    · exact htarget
    · exact htargets other hother

/-- Searches are sound, whatever room they have. -/
theorem sound_cyclesFrom (hg : Guards cx owners guarded) (room : Nat) : Sound cx owners guarded room := by
  induction room with
  | zero => exact fun _ _ _ _ _ hroom => absurd hroom (Nat.not_lt_zero _)
  | succ room ih =>
    intro path seen s frag hfrag hroom hinv havoids
    by_cases hseen : frag.name.text ∈ seen
    · rw [cyclesFrom_of_seen hseen]
      exact ⟨hinv, List.Subset.refl _, hseen⟩
    · rw [cyclesFrom_of_new hseen] at havoids ⊢
      have hless : unseen cx.names (frag.name.text :: seen) < unseen cx.names seen :=
        unseen_lt (List.subset_cons_self _ _) (Context.mem_names_of_fragment? hfrag) hseen List.mem_cons_self
      have hinside : Inv cx guarded (path.map Step.inside ++ [frag.name.text]) (frag.name.text :: seen) := by
        intro name hname hguarded
        rcases List.mem_cons.1 hname with rfl | hname
        · exact .inl (List.mem_append_right _ (List.mem_singleton_self _))
        · exact (hinv name hname hguarded).imp_left (List.mem_append_left _)
      obtain ⟨hinv', hsub, htargets⟩ := inv_foldl_goOn hg ih hfrag (stepsOf s frag) (List.Subset.refl _)
        (by show unseen _ (_ :: _) < _; omega) hinside havoids
      refine ⟨fun name hname hguarded => ?_, List.Subset.trans (List.subset_cons_self _ _) hsub,
        hsub List.mem_cons_self⟩
      rcases hinv' name hname hguarded with hmem | hacc
      · rcases List.mem_append.1 hmem with hmem | hmem
        · exact .inl hmem
        · -- the fragment itself is left behind now, and so is everything that it spreads
          cases List.mem_singleton.1 hmem
          refine .inr (.intro _ fun inner hinner => ?_)
          obtain ⟨hamong, body, hbody, hspread, hsome⟩ := hinner
          rw [Context.bodyOf_eq hfrag] at hbody
          cases hbody
          obtain ⟨spread, hmem, rfl⟩ := SelectionSet.mem_spreadNames.1 hspread
          exact htargets ⟨frag.name.text, s, spread⟩ (mem_stepsOf.2 ⟨spread, hmem, rfl⟩) hguarded hamong hsome
      · exact .inr hacc

theorem inv_foldl_searchFrom (hg : Guards cx owners guarded) (starts : List (Subject × Fragment))
    (hstarts : ∀ start ∈ starts, cx.fragment? start.2.name.text = some start) (hinv : Inv cx guarded [] state.2)
    (havoids : Avoids owners (starts.foldl (searchFrom cx) state).1) :
    Inv cx guarded [] (starts.foldl (searchFrom cx) state).2 ∧
      state.2 ⊆ (starts.foldl (searchFrom cx) state).2 ∧
      ∀ start ∈ starts, start.2.name.text ∈ (starts.foldl (searchFrom cx) state).2 := by
  induction starts generalizing state with
  | nil => exact ⟨hinv, List.Subset.refl _, fun _ h => absurd h List.not_mem_nil⟩
  | cons start rest ih =>
    rw [List.foldl_cons] at havoids ⊢
    obtain ⟨s, frag⟩ := start
    have hroom : unseen cx.names state.2 < cx.fragments.length + 1 := Nat.lt_succ_of_le (cx.unseen_names_le _)
    have hmore : Avoids owners (searchFrom cx state (s, frag)).1 := havoids.mono (found_subset_foldl_searchFrom rest)
    have hsearch : Inv cx guarded [] (searchFrom cx state (s, frag)).2 ∧
        state.2 ⊆ (searchFrom cx state (s, frag)).2 ∧ frag.name.text ∈ (searchFrom cx state (s, frag)).2 :=
      sound_cyclesFrom hg _ [] state.2 s frag (hstarts _ List.mem_cons_self) hroom hinv
        (hmore.mono (List.subset_append_right _ _))
    obtain ⟨hinv', hseen, hstart⟩ := hsearch
    obtain ⟨hinv'', hseen', hrest⟩ := ih (fun x hx => hstarts x (List.mem_cons_of_mem _ hx)) hinv' havoids
    refine ⟨hinv'', List.Subset.trans hseen hseen', fun other hother => ?_⟩
    rcases List.mem_cons.1 hother with rfl | hother
    · exact hseen' hstart
    · exact hrest other hother

/-- If no cycle that was found goes through an owner, then below a guarded name all spreads of guarded names come to an
end. -/
theorem acc_of_cycles (hg : Guards cx owners guarded) (havoids : Avoids owners (cycles cx)) {name : String}
    (hguarded : guarded name) (hfound : cx.fragment? name = some (s, frag)) :
    Acc (SpreadAmong cx.bodyOf guarded) name := by
  have hstarts : ∀ start ∈ cx.fragmentNames.filterMap cx.fragment?, cx.fragment? start.2.name.text = some start := by
    rintro ⟨s, frag⟩ hmem
    obtain ⟨name, -, hfound⟩ := List.mem_filterMap.1 hmem
    rw [Context.name_of_fragment? hfound]
    exact hfound
  have hlisted : name ∈ cx.fragmentNames := by
    rw [Context.fragmentNames_eq]
    exact OrderedSet.mem_ofList.2 (Context.mem_names_of_fragment? hfound)
  have hmem : (s, frag) ∈ cx.fragmentNames.filterMap cx.fragment? := List.mem_filterMap.2 ⟨name, hlisted, hfound⟩
  obtain ⟨hinv, -, hseen⟩ := @inv_foldl_searchFrom cx ([], []) _ _ hg _ hstarts
    (fun _ h => absurd h List.not_mem_nil) havoids
  have hname := hseen _ hmem
  rw [Context.name_of_fragment? hfound] at hname
  exact (hinv name hname hguarded).resolve_left List.not_mem_nil

end CycleSearch

end Search

/-! ## The rules -/

section Rules

variable {cx : Context}

theorem uniqueFragmentNames_eq_nil_iff : uniqueFragmentNames cx = [] ↔ cx.names.Nodup :=
  List.map_eq_nil_iff.trans repeats_eq_nil_iff

theorem mem_acyclicFragments {f : Finding} :
    f ∈ acyclicFragments cx ↔ ∃ first rest, first :: rest ∈ cycles cx ∧ f = cycleFinding first rest := by
  unfold acyclicFragments
  rw [List.mem_filterMap]
  constructor
  · rintro ⟨cycle, hcycle, he⟩
    cases cycle with
    | nil => cases he
    | cons first rest =>
      cases he
      exact ⟨first, rest, hcycle, rfl⟩
  · rintro ⟨first, rest, hcycle, rfl⟩
    exact ⟨_, hcycle, rfl⟩

/-- The rule on cycles rejects the fragments that hold the steps of the cycles found. -/
theorem rejects_acyclicFragments_iff {owner : Owner} :
    Rejects acyclicFragments cx owner ↔ ∃ cycle ∈ cycles cx, ∃ step ∈ cycle, step.subject.owner = owner := by
  constructor
  · rintro ⟨f, hf, howner⟩
    obtain ⟨first, rest, hcycle, rfl⟩ := mem_acyclicFragments.1 hf
    obtain ⟨step, hstep, rfl⟩ := List.mem_map.1 howner
    exact ⟨_, hcycle, step, hstep, rfl⟩
  · rintro ⟨cycle, hcycle, step, hstep, rfl⟩
    cases cycle with
    | nil => exact absurd hstep List.not_mem_nil
    | cons first rest =>
      exact ⟨_, mem_acyclicFragments.2 ⟨first, rest, hcycle, rfl⟩, List.mem_map_of_mem hstep⟩

/-- The search may miss fragments that lead to themselves. But of those that such a fragment leads to, and that lead
back to it, it rejects one. -/
theorem exists_rejected_of_leadsTo {name : String} (hself : LeadsTo cx.bodyOf name name) :
    ∃ other s frag, LeadsTo cx.bodyOf name other ∧ LeadsTo cx.bodyOf other name ∧
      cx.fragment? other = some (s, frag) ∧ Rejects acyclicFragments cx s.owner := by
  by_contra hnone
  -- the fragments that lead to `name` and back guard themselves, so below `name` their spreads come to an end
  have hguards : CycleSearch.Guards cx (fun owner => ¬ Rejects acyclicFragments cx owner)
      fun other => LeadsTo cx.bodyOf name other ∧ LeadsTo cx.bodyOf other name :=
    fun other s frag hother hfound hrejects => hnone ⟨other, s, frag, hother.1, hother.2, hfound, hrejects⟩
  have havoids : CycleSearch.Avoids (fun owner => ¬ Rejects acyclicFragments cx owner) (cycles cx) :=
    fun cycle hcycle step hstep hspared => hspared (rejects_acyclicFragments_iff.2 ⟨cycle, hcycle, step, hstep, rfl⟩)
  obtain ⟨body, hbody, -⟩ := id hself
  obtain ⟨s, frag, hfound, -⟩ := Context.exists_of_bodyOf hbody
  have hacc := CycleSearch.acc_of_cycles hguards havoids ⟨hself, hself⟩ hfound
  exact not_leadsTo_of_acc hacc (fun other hthere hback => ⟨hthere, hback⟩) hself

/-- The rule on cycles finds nothing just if no fragment reaches itself. -/
theorem acyclicFragments_eq_nil_iff : acyclicFragments cx = [] ↔
    ∀ name body, cx.bodyOf name = some body → ¬ Reaches cx.bodyOf body name := by
  constructor
  · intro hnil name body hbody hreach
    obtain ⟨_, _, _, -, -, -, f, hf, -⟩ := exists_rejected_of_leadsTo ⟨body, hbody, hreach⟩
    rw [hnil] at hf
    exact List.not_mem_nil hf
  · intro hacyclic
    refine List.eq_nil_iff_forall_not_mem.2 fun f hf => ?_
    obtain ⟨first, rest, hcycle, -⟩ := mem_acyclicFragments.1 hf
    obtain ⟨name, body, hbody, hreach⟩ := (closed_of_mem_cycles _ hcycle).exists_leadsTo
    exact hacyclic name body hbody hreach

/-! ### Reports -/

/-- What the diagnostic for a cycle says of a step on it. -/
def Step.related (step : Step) : Related :=
  ⟨step.subject.source, step.spread.span, "spreads `" ++ step.target ++ "`"⟩

/-- The diagnostic for a cycle stands at its first step, names where it closes, and relates the other steps. -/
theorem diagnostic_cycleFinding (first : Step) (rest : List Step) : (cycleFinding first rest).diagnostic =
    some { (first.subject.diagnostic .fragmentCycle first.spread.span).withDetail (rest.getLast?.getD first).target with
      related := rest.map Step.related } := by
  have hfold : ∀ (steps : List Step) (d : Diagnostic), (steps.foldl (fun d step =>
      d.relatedTo step.subject.source step.spread.span ("spreads `" ++ step.target ++ "`")) d) =
      { d with related := d.related ++ steps.map Step.related } := by
    intro steps
    induction steps with
    | nil =>
      intro d
      rw [List.map_nil, List.append_nil, List.foldl_nil]
    | cons step rest ih =>
      intro d
      rw [List.foldl_cons, ih]
      unfold Diagnostic.relatedTo
      rw [List.append_assoc]
      rfl
  exact congrArg some (hfold rest _)

/-- The rule on cycles reports a cycle just if some fragment leads to itself. Every report tells a closed way: at its
first step, and with the other steps as related places; and it rejects all fragments on the way. It may miss fragments
that lead to themselves, but of all that lead to one another in a circle it rejects one. -/
theorem cycles_reported (cx : Context) :
    ((∃ f ∈ acyclicFragments cx, ∃ d, f.diagnostic = some d ∧ d.kind = .fragmentCycle) ↔
      ∃ name, LeadsTo cx.bodyOf name name) ∧
    (∀ f ∈ acyclicFragments cx, ∃ d first rest, f.diagnostic = some d ∧ cx.ClosedWay (first :: rest) ∧
      d.kind = .fragmentCycle ∧ d.source = first.subject.source ∧ d.span = first.spread.span ∧
      d.related = rest.map Step.related ∧ f.rejected = (first :: rest).map fun step => step.subject.owner) ∧
    ∀ name, LeadsTo cx.bodyOf name name → ∃ other s frag, LeadsTo cx.bodyOf name other ∧
      LeadsTo cx.bodyOf other name ∧ cx.fragment? other = some (s, frag) ∧ Rejects acyclicFragments cx s.owner := by
  refine ⟨⟨?_, ?_⟩, ?_, fun name hself => exists_rejected_of_leadsTo hself⟩
  · rintro ⟨f, hf, -⟩
    obtain ⟨first, rest, hcycle, -⟩ := mem_acyclicFragments.1 hf
    exact (closed_of_mem_cycles _ hcycle).exists_leadsTo
  · rintro ⟨name, hself⟩
    obtain ⟨-, -, -, -, -, -, f, hf, -⟩ := exists_rejected_of_leadsTo hself
    obtain ⟨first, rest, -, rfl⟩ := mem_acyclicFragments.1 hf
    exact ⟨_, hf, _, diagnostic_cycleFinding first rest, rfl⟩
  · intro f hf
    obtain ⟨first, rest, hcycle, rfl⟩ := mem_acyclicFragments.1 hf
    exact ⟨_, first, rest, diagnostic_cycleFinding first rest, closed_of_mem_cycles _ hcycle, rfl, rfl, rfl, rfl, rfl⟩

end Rules

end QueryBatch.Rules
