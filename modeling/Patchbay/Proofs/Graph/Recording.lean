import Mathlib.Data.Set.Insert
import Patchbay.Proofs.Graph.DepthFirst

/-!
# Walks that keep a record

The successors of a vertex may be told by a procedure that keeps a record of what it has been asked,
and looks it up. A walk threads the record through (`postorderRecording`). Where the procedure tells
what a function of the vertices tells, whatever its record, the walk goes as it does with the
function, and the record at the end is one of all vertices that it lists
(`postorderRecording_agree`). Where one procedure refuses what another tells, and else tells the
same, the walks are the same up to the first refusal (`postorderRecording_narrows`).
-/

namespace Patchbay.DepthFirst

variable {α ε σ : Type} [DecidableEq α]

/-- `visit` with a record. -/
def visitRecording (tell : σ → α → Except ε (List α × σ)) (unvisited : List α)
    (path : List (Frame α)) (finished : List α) (record : σ) :
    Except (Interrupt ε α) (List α × List α × σ) :=
  match path with
  | [] => .ok (unvisited, finished, record)
  | ⟨v, []⟩ :: rest => visitRecording tell unvisited rest (v :: finished) record
  | ⟨v, w :: pending⟩ :: rest =>
    if w ∈ (⟨v, pending⟩ :: rest : List (Frame α)).map Frame.vertex then
      .error (.cycle (closeCycle (⟨v, pending⟩ :: rest) w))
    else if _fresh : w ∈ unvisited then
      match tell record w with
      | .error cause => .error (.refused cause)
      | .ok (next, record) =>
        visitRecording tell (unvisited.erase w) (⟨w, next⟩ :: ⟨v, pending⟩ :: rest) finished record
    else visitRecording tell unvisited (⟨v, pending⟩ :: rest) finished record
termination_by (unvisited.length, work path)
decreasing_by
  · exact Prod.Lex.right _ (by simp [work])
  · exact Prod.Lex.left _ _ (by
      have := List.length_pos_of_mem _fresh
      rw [List.length_erase_of_mem _fresh]
      omega)
  · exact Prod.Lex.right _ (by simp [work])

/-- `visitRoots` with a record. -/
def visitRootsRecording (tell : σ → α → Except ε (List α × σ)) (unvisited finished : List α)
    (record : σ) : List α → Except (Interrupt ε α) (List α × List α × σ)
  | [] => .ok (unvisited, finished, record)
  | root :: roots =>
    if root ∈ unvisited then
      match tell record root with
      | .error cause => .error (.refused cause)
      | .ok (next, record) =>
        match visitRecording tell (unvisited.erase root) [⟨root, next⟩] finished record with
        | .error interrupt => .error interrupt
        | .ok (unvisited, finished, record) =>
          visitRootsRecording tell unvisited finished record roots
    else visitRootsRecording tell unvisited finished record roots

/-- `postorder` with a record; the answer holds the record at the end. -/
def postorderRecording (vertices : List α) (tell : σ → α → Except ε (List α × σ)) (record : σ)
    (roots : List α) : Except (Interrupt ε α) (List α × σ) :=
  (visitRootsRecording tell vertices [] record roots).map fun (_, finished, record) =>
    (finished.reverse, record)

/-- What the walk has visited: the path and what is finished. -/
def visited (path : List (Frame α)) (finished : List α) : Set α :=
  {v | v ∈ path.map Frame.vertex ∨ v ∈ finished}

/-- The procedure tells the successors that the function tells, and makes its record one of the
vertex too. -/
def Tells (tell : σ → α → Except ε (List α × σ)) (edges : α → Except ε (List α))
    (Holds : Set α → σ → Prop) : Prop :=
  ∀ seen record v, Holds seen record →
    Agree Eq (fun answer next => answer.1 = next ∧ Holds (insert v seen) answer.2)
      (tell record v) (edges v)

/-- The states of two walks, of which one keeps a record of what is finished. -/
def Recorded (Holds : Set α → σ → Prop) (s : List α × List α × σ) (t : List α × List α) : Prop :=
  s.1 = t.1 ∧ s.2.1 = t.2 ∧ Holds {v | v ∈ t.2} s.2.2

variable {tell : σ → α → Except ε (List α × σ)} {edges : α → Except ε (List α)}
  {Holds : Set α → σ → Prop} {record : σ} {unvisited finished vertices roots : List α}
  {path rest : List (Frame α)} {v w : α} {next : List α}

omit [DecidableEq α] in
theorem visited_finish :
    visited rest (v :: finished) = visited (⟨v, []⟩ :: rest) finished := by
  ext u
  simp only [visited, Set.mem_ofPred_eq, List.map_cons, List.mem_cons]
  tauto

omit [DecidableEq α] in
theorem visited_push :
    visited (⟨w, next⟩ :: path) finished = insert w (visited path finished) := by
  ext u
  simp only [visited, Set.mem_ofPred_eq, List.map_cons, List.mem_cons, Set.mem_insert_iff, or_assoc]

theorem visitRecording_agree (ht : Tells tell edges Holds)
    (h : Holds (visited path finished) record) :
    Agree Eq (Recorded Holds) (visitRecording tell unvisited path finished record)
      (visit edges unvisited path finished) := by
  fun_induction visit edges unvisited path finished generalizing record with
  | case1 unvisited finished =>
    rw [visitRecording]
    refine .ok ⟨rfl, rfl, ?_⟩
    simpa [visited] using h
  | case2 unvisited finished v rest ih =>
    rw [visitRecording]
    exact ih (visited_finish ▸ h)
  | case3 unvisited finished v w pending rest hon =>
    rw [visitRecording, if_pos hon]
    exact .error rfl
  | case4 unvisited finished v w pending rest hoff hfresh cause hcause =>
    rw [visitRecording, if_neg hoff, dif_pos hfresh]
    have htold := hcause ▸ ht _ _ w h
    generalize tell record w = answer at htold
    cases htold with
    | error h => exact .error (congrArg _ h)
  | case5 unvisited finished v w pending rest hoff hfresh next hnext ih =>
    rw [visitRecording, if_neg hoff, dif_pos hfresh]
    have htold := hnext ▸ ht _ _ w h
    generalize tell record w = answer at htold
    cases htold with
    | @ok answer _ h =>
      obtain ⟨rfl, hholds⟩ := h
      exact ih (visited_push ▸ hholds)
  | case6 unvisited finished v w pending rest hoff hold ih =>
    rw [visitRecording, if_neg hoff, dif_neg hold]
    exact ih h

theorem visitRootsRecording_agree (ht : Tells tell edges Holds)
    (h : Holds {v | v ∈ finished} record) :
    Agree Eq (Recorded Holds) (visitRootsRecording tell unvisited finished record roots)
      (visitRoots edges unvisited finished roots) := by
  induction roots generalizing unvisited finished record with
  | nil => exact .ok ⟨rfl, rfl, h⟩
  | cons root roots ih =>
    unfold visitRootsRecording visitRoots
    by_cases hfresh : root ∈ unvisited
    · rw [if_pos hfresh, if_pos hfresh]
      have htold := ht _ _ root h
      generalize tell record root = answer at htold
      generalize edges root = successors at htold
      cases htold with
      | error h => exact .error (congrArg _ h)
      | @ok answer next h =>
        obtain ⟨rfl, hholds⟩ := h
        have hstart : visited [⟨root, answer.1⟩] finished = insert root {v | v ∈ finished} := by
          ext u
          simp [visited]
        have hwalk : Agree Eq (Recorded Holds)
            (visitRecording tell (unvisited.erase root) [⟨root, answer.1⟩] finished answer.2)
            (visit edges (unvisited.erase root) [⟨root, answer.1⟩] finished) :=
          visitRecording_agree ht (hstart ▸ hholds)
        dsimp only
        generalize visitRecording tell (unvisited.erase root) [⟨root, answer.1⟩] finished
          answer.2 = recording at hwalk ⊢
        generalize visit edges (unvisited.erase root) [⟨root, answer.1⟩] finished = walk at hwalk ⊢
        cases hwalk with
        | error h => exact .error h
        | @ok s t h =>
          obtain ⟨hunvisited, hfinished, hrecord⟩ := h
          dsimp only
          rw [hunvisited, hfinished]
          exact ih hrecord
    · rw [if_neg hfresh, if_neg hfresh]
      exact ih h

/-- A walk with a record lists what the walk without it lists, and the record is one of all that it
has listed. -/
theorem postorderRecording_agree (ht : Tells tell edges Holds) (h : Holds ∅ record) :
    Agree Eq (fun answer order => answer.1 = order ∧ Holds {v | v ∈ order} answer.2)
      (postorderRecording vertices tell record roots) (postorder vertices edges roots) := by
  have hstart : Holds {v | v ∈ ([] : List α)} record := by simpa using h
  refine (visitRootsRecording_agree ht hstart).map fun s t hst => ?_
  obtain ⟨_, hfinished, hrecord⟩ := hst
  exact ⟨congrArg List.reverse hfinished, by simpa using hrecord⟩

/-! ## Procedures that refuse more -/

variable {tell' : σ → α → Except ε (List α × σ)} {E : ε → Prop}

/-- The walk has been refused for a cause of this sort. -/
def RefusedFor (E : ε → Prop) : Interrupt ε α → Prop
  | .cycle _ => False
  | .refused cause => E cause

theorem visitRecording_narrows (h : ∀ record v, Narrows E (tell record v) (tell' record v))
    (unvisited : List α) (path : List (Frame α)) (finished : List α) (record : σ) :
    Narrows (RefusedFor E) (visitRecording tell unvisited path finished record)
      (visitRecording tell' unvisited path finished record) := by
  fun_induction visitRecording tell' unvisited path finished record with
  | case1 => 
    rw [visitRecording]
    exact .refl _
  | case2 _ _ _ _ _ ih =>
    rw [visitRecording]
    exact ih
  | case3 _ _ _ _ _ _ _ hon =>
    rw [visitRecording, if_pos hon]
    exact .refl _
  | case4 unvisited finished record v w pending rest hoff hfresh cause hcause =>
    rw [visitRecording, if_neg hoff, dif_pos hfresh]
    rcases h record w with heq | ⟨cause', hcause', heq⟩
    · rw [heq, hcause]
      exact .refl _
    · rw [heq]
      exact .error hcause'
  | case5 unvisited finished record v w pending rest hoff hfresh next record' hnext ih =>
    rw [visitRecording, if_neg hoff, dif_pos hfresh]
    rcases h record w with heq | ⟨cause', hcause', heq⟩
    · rw [heq, hnext]
      exact ih
    · rw [heq]
      exact .error hcause'
  | case6 _ _ _ _ _ _ _ hoff hold ih =>
    rw [visitRecording, if_neg hoff, dif_neg hold]
    exact ih

theorem visitRootsRecording_narrows (h : ∀ record v, Narrows E (tell record v) (tell' record v))
    (unvisited finished : List α) (record : σ) (roots : List α) :
    Narrows (RefusedFor E) (visitRootsRecording tell unvisited finished record roots)
      (visitRootsRecording tell' unvisited finished record roots) := by
  induction roots generalizing unvisited finished record with
  | nil => exact .refl _
  | cons root roots ih =>
    unfold visitRootsRecording
    split
    · rcases h record root with heq | ⟨cause, hcause, heq⟩
      · rw [heq]
        cases tell' record root with
        | error cause => exact .refl _
        | ok answer =>
          have hwalk := visitRecording_narrows h (unvisited.erase root) [⟨root, answer.1⟩] finished
            answer.2
          dsimp only
          rcases hwalk with heq | ⟨interrupt, hinterrupt, heq⟩
          · rw [heq]
            split
            · exact .refl _
            · exact ih _ _ _
          · rw [heq]
            exact .error hinterrupt
      · rw [heq]
        exact .error hcause
    · exact ih _ _ _

theorem postorderRecording_narrows (h : ∀ record v, Narrows E (tell record v) (tell' record v))
    (vertices : List α) (record : σ) (roots : List α) :
    Narrows (RefusedFor E) (postorderRecording vertices tell record roots)
      (postorderRecording vertices tell' record roots) :=
  (visitRootsRecording_narrows h vertices [] record roots).map _

end Patchbay.DepthFirst
