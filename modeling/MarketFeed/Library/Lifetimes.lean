import Mathlib.Algebra.GroupWithZero.Nat
import Mathlib.Data.List.Forall2
import Mathlib.Data.List.Perm.Basic

/-! A roster that a clock attends to: at each tick every member either leaves with a report
or stays, newcomers join behind, and whoever is left at the end is closed. The members do not
meet, so each one's report is the one it would give alone. -/
namespace MarketFeed.Lifetimes

variable {T A R : Type*} (attend : T → A → R ⊕ A) (close : A → R)

/-- The report of one member alone. -/
def fate : List T → A → R
  | [],member => close member
  | tick :: later,member =>
    match attend tick member with
    | .inl report => report
    | .inr member => fate later member

def roster : List (T × List A) → List A → List R
  | [],active => active.map close
  | (tick,newcomers) :: later,active =>
    let outcomes := active.map (attend tick)
    outcomes.filterMap Sum.getLeft? ++ roster later (outcomes.filterMap Sum.getRight? ++ newcomers)

/-- The most members the roster holds before a tick or at the end. -/
def crowd : List (T × List A) → List A → Nat
  | [],active => active.length
  | (tick,newcomers) :: later,active =>
    max active.length (crowd later ((active.map (attend tick)).filterMap Sum.getRight? ++ newcomers))

/-- The reports of those who join, each of whom sees the ticks after the one it joined at. -/
def joined : List (T × List A) → List R
  | [] => []
  | (_,newcomers) :: later => newcomers.map (fate attend close (later.map Prod.fst)) ++ joined later

theorem attended_perm (tick : T) (later : List T) (active : List A) :
    ((active.map (attend tick)).filterMap Sum.getLeft? ++
      ((active.map (attend tick)).filterMap Sum.getRight?).map (fate attend close later)).Perm
      (active.map (fate attend close (tick :: later))) := by
  induction active with
  | nil => exact .refl _
  | cons member active ih =>
    cases outcome : attend tick member with
    | inl report =>
      simp only [List.map_cons,outcome,List.filterMap_cons,Sum.getLeft?_inl,Sum.getRight?_inl,fate]
      exact ih.cons report
    | inr member =>
      simp only [List.map_cons,outcome,List.filterMap_cons,Sum.getLeft?_inr,Sum.getRight?_inr,fate]
      exact List.perm_middle.trans (ih.cons _)

theorem roster_perm (ticks : List (T × List A)) (active : List A) :
    (roster attend close ticks active).Perm
      (active.map (fate attend close (ticks.map Prod.fst)) ++ joined attend close ticks) := by
  induction ticks generalizing active with
  | nil => simp [roster,joined,fate]
  | cons tick later ih =>
    obtain ⟨tick,newcomers⟩ := tick
    simp only [roster,joined,List.map_cons]
    have stayed := ih ((active.map (attend tick)).filterMap Sum.getRight? ++ newcomers)
    rw [List.map_append,List.append_assoc] at stayed
    refine (stayed.append_left _).trans ?_
    rw [← List.append_assoc]
    exact (attended_perm attend close tick _ active).append_right _

theorem crowd_le (ticks : List (T × List A)) (active : List A) :
    crowd attend ticks active ≤ active.length + (ticks.map fun tick => tick.2.length).sum := by
  induction ticks generalizing active with
  | nil => exact Nat.le_add_right _ _
  | cons tick later ih =>
    obtain ⟨tick,newcomers⟩ := tick
    have stayed := ih ((active.map (attend tick)).filterMap Sum.getRight? ++ newcomers)
    have fewer := List.length_filterMap_le Sum.getRight? (active.map (attend tick))
    rw [List.length_map] at fewer
    rw [List.length_append] at stayed
    simp only [crowd,List.map_cons,List.sum_cons]
    omega

section Simulation
variable {T' A' R' : Type*} {attend : T → A → R ⊕ A} {close : A → R} {attend' : T' → A' → R' ⊕ A'} {close' : A' → R'}
  {ticks : T → T' → Prop} {members : A → A' → Prop} {reports : R → R' → Prop}

theorem attended_related {outcomes : List (R ⊕ A)} {outcomes' : List (R' ⊕ A')}
    (related : List.Forall₂ (Sum.LiftRel reports members) outcomes outcomes') :
    List.Forall₂ reports (outcomes.filterMap Sum.getLeft?) (outcomes'.filterMap Sum.getLeft?) ∧
      List.Forall₂ members (outcomes.filterMap Sum.getRight?) (outcomes'.filterMap Sum.getRight?) := by
  induction related with
  | nil => exact ⟨.nil,.nil⟩
  | cons first _ ih =>
    cases first with
    | inl report => exact ⟨.cons report ih.1,ih.2⟩
    | inr member => exact ⟨ih.1,.cons member ih.2⟩

/-- Two rosters whose clocks and members are related at every step report what is related. -/
theorem roster_related
    (attends : ∀ t t' a a', ticks t t' → members a a' → Sum.LiftRel reports members (attend t a) (attend' t' a'))
    (closes : ∀ a a', members a a' → reports (close a) (close' a'))
    {script : List (T × List A)} {script' : List (T' × List A')}
    (scripts : List.Forall₂ (fun x x' => ticks x.1 x'.1 ∧ List.Forall₂ members x.2 x'.2) script script')
    {active : List A} {active' : List A'} (actives : List.Forall₂ members active active') :
    List.Forall₂ reports (roster attend close script active) (roster attend' close' script' active') := by
  induction scripts generalizing active active' with
  | nil => exact List.rel_map (fun _ _ member => closes _ _ member) actives
  | cons here _ ih =>
    obtain ⟨tick,newcomers⟩ := here
    obtain ⟨left,stay⟩ := attended_related (List.rel_map (fun _ _ member => attends _ _ _ _ tick member) actives)
    exact List.rel_append left (ih (List.rel_append stay newcomers))

theorem crowd_related
    (attends : ∀ t t' a a', ticks t t' → members a a' → Sum.LiftRel reports members (attend t a) (attend' t' a'))
    {script : List (T × List A)} {script' : List (T' × List A')}
    (scripts : List.Forall₂ (fun x x' => ticks x.1 x'.1 ∧ List.Forall₂ members x.2 x'.2) script script')
    {active : List A} {active' : List A'} (actives : List.Forall₂ members active active') :
    crowd attend script active = crowd attend' script' active' := by
  induction scripts generalizing active active' with
  | nil => exact actives.length_eq
  | cons here _ ih =>
    obtain ⟨tick,newcomers⟩ := here
    obtain ⟨_,stay⟩ := attended_related (List.rel_map (fun _ _ member => attends _ _ _ _ tick member) actives)
    rw [crowd,crowd,actives.length_eq,ih (List.rel_append stay newcomers)]

end Simulation

end MarketFeed.Lifetimes
