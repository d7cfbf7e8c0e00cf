import Mathlib.Data.Fintype.Basic
import Mathlib.Data.Set.Finite.Basic
import Mathlib.Logic.Function.Basic
import Patchbay.Proofs.Graph.Postorder

/-!
# The recursive search

The depth-first search of the textbooks visits a vertex by painting it gray, visiting those of its
successors that are white, and painting it black; a gray successor closes a cycle. Its runs are
derivations (`Explores`): what cannot be derived is a search without an end. On a graph of which the
roots reach a finite part there is one outcome, which is that of the walk with an explicit path
(`postorder_search`).

At every point of a walk the path is what is left of the recursion (`Resumes`): each frame holds the
successors that its vertex has still to visit. A step of the walk is one rule of the recursion.
-/

namespace Patchbay.DepthFirst

variable {α ε : Type}

/-! ## Colours -/

/-- What a search knows of a vertex: it is not visited, on the path, or finished. -/
inductive Color where
  | white
  | gray
  | black
  deriving DecidableEq

/-- What a search has found out: the colour of each vertex, and the finished vertices in order. -/
structure Search (α : Type) where
  color : α → Color
  order : List α

namespace Search

/-- No vertex is visited. -/
def start : Search α := ⟨fun _ => .white, []⟩

variable [DecidableEq α]

/-- The vertex comes onto the path. -/
def enter (s : Search α) (v : α) : Search α := { s with color := Function.update s.color v .gray }

/-- The vertex is finished. -/
def leave (s : Search α) (v : α) : Search α :=
  ⟨Function.update s.color v .black, s.order ++ [v]⟩

end Search

/-! ## The search -/

variable [DecidableEq α] {edges : α → Except ε (List α)} {vertices roots : List α}

/-- The search goes through some vertices, from the end of a path. A black vertex is passed over. A
gray one is on the path, and closes the part of it from there on. A white one is entered, the search
goes through its successors, and the vertex is left; whatever stops the search there stops it. -/
inductive Explores (edges : α → Except ε (List α)) :
    List α → List α → Search α → Except (Interrupt ε α) (Search α) → Prop
  | done {path : List α} {s : Search α} : Explores edges path [] s (.ok s)
  | black {path next : List α} {w : α} {s : Search α}
      {outcome : Except (Interrupt ε α) (Search α)} : s.color w = .black →
      Explores edges path next s outcome →
      Explores edges path (w :: next) s outcome
  | gray {path next : List α} {w : α} {s : Search α} : s.color w = .gray →
      Explores edges path (w :: next) s (.error (.cycle (path.drop (path.idxOf w) ++ [w])))
  | refused {path next : List α} {w : α} {s : Search α} {cause : ε} : s.color w = .white →
      edges w = .error cause → Explores edges path (w :: next) s (.error (.refused cause))
  | stopped {path next inner : List α} {w : α} {s : Search α} {interrupt : Interrupt ε α} :
      s.color w = .white → edges w = .ok inner →
      Explores edges (path ++ [w]) inner (s.enter w) (.error interrupt) →
      Explores edges path (w :: next) s (.error interrupt)
  | white {path next inner : List α} {w : α} {s t : Search α}
      {outcome : Except (Interrupt ε α) (Search α)} : s.color w = .white → edges w = .ok inner →
      Explores edges (path ++ [w]) inner (s.enter w) (.ok t) →
      Explores edges path next (t.leave w) outcome → Explores edges path (w :: next) s outcome

/-- The outcome of the search from some roots: the finished vertices in order, or what stops it. -/
def Searches (edges : α → Except ε (List α)) (roots : List α)
    (outcome : Except (Interrupt ε α) (List α)) : Prop :=
  ∃ ended, Explores edges [] roots .start ended ∧ outcome = ended.map Search.order

/-- A search has one outcome at most. -/
theorem Explores.unique {path next : List α} {s : Search α}
    {outcome outcome' : Except (Interrupt ε α) (Search α)}
    (h : Explores edges path next s outcome) (h' : Explores edges path next s outcome') :
    outcome = outcome' := by
  induction h generalizing outcome' with
  | done =>
    cases h' with
    | done => rfl
  | black hcolor _ ih =>
    cases h' with
    | black _ h => exact ih h
    | _ => simp_all
  | gray hcolor =>
    cases h' with
    | gray => rfl
    | _ => simp_all
  | refused hcolor hcause =>
    cases h' with
    | refused _ hcause' => rw [Except.error.inj (hcause.symm.trans hcause')]
    | _ => simp_all
  | stopped hcolor hinner _ ih =>
    cases h' with
    | stopped _ hinner' h =>
      obtain rfl := Except.ok.inj (hinner.symm.trans hinner')
      exact congrArg Except.error (Except.error.inj (ih h))
    | white _ hinner' h =>
      obtain rfl := Except.ok.inj (hinner.symm.trans hinner')
      exact absurd (ih h) (by simp)
    | _ => simp_all
  | white hcolor hinner _ _ ih ihrest =>
    cases h' with
    | stopped _ hinner' h =>
      obtain rfl := Except.ok.inj (hinner.symm.trans hinner')
      exact absurd (ih h) (by simp)
    | white _ hinner' h hrest =>
      obtain rfl := Except.ok.inj (hinner.symm.trans hinner')
      obtain rfl := Except.ok.inj (ih h)
      exact ihrest hrest
    | _ => simp_all

/-- What is left of the recursion where a walk stands on a path, innermost vertex first: a vertex
has its pending successors still to visit, after which it is left. -/
def Resumes (edges : α → Except ε (List α)) :
    List (Frame α) → Search α → Except (Interrupt ε α) (Search α) → Prop
  | [], s, outcome => outcome = .ok s
  | frame :: rest, s, outcome =>
    ∃ ended, Explores edges ((frame :: rest).map Frame.vertex).reverse frame.pending s ended ∧
      match ended with
      | .error interrupt => outcome = .error interrupt
      | .ok t => Resumes edges rest (t.leave frame.vertex) outcome

/-! ## The steps of a walk as rules -/

namespace Resumes

variable {rest : List (Frame α)} {v w : α} {next pending : List α} {s : Search α}
  {outcome : Except (Interrupt ε α) (Search α)}

theorem finish (h : Resumes edges rest (s.leave v) outcome) :
    Resumes edges (⟨v, []⟩ :: rest) s outcome :=
  ⟨.ok s, .done, h⟩

theorem gray (h : s.color w = .gray)
    (hon : w ∈ (⟨v, pending⟩ :: rest : List (Frame α)).map Frame.vertex) :
    Resumes edges (⟨v, w :: pending⟩ :: rest) s
      (.error (.cycle (closeCycle (⟨v, pending⟩ :: rest) w))) := by
  obtain ⟨before, after, heq, hbefore, hcycle⟩ := Threaded.exists_cut hon
  have hcut : (before ++ w :: after).drop ((before ++ w :: after).idxOf w) = w :: after := by
    rw [List.idxOf_append_of_notMem hbefore, List.idxOf_cons_self, Nat.add_zero,
      List.drop_left]
  have hstop : Explores edges (before ++ w :: after) (w :: pending) s
      (.error (.cycle ((before ++ w :: after).drop ((before ++ w :: after).idxOf w) ++ [w]))) :=
    .gray h
  rw [hcut, ← heq, ← hcycle] at hstop
  exact ⟨_, hstop, rfl⟩

theorem black (h : s.color w = .black)
    (hrest : Resumes edges (⟨v, pending⟩ :: rest) s outcome) :
    Resumes edges (⟨v, w :: pending⟩ :: rest) s outcome := by
  obtain ⟨ended, hexplores, hended⟩ := hrest
  exact ⟨ended, .black h hexplores, hended⟩

theorem refused {cause : ε} (h : s.color w = .white) (hcause : edges w = .error cause) :
    Resumes edges (⟨v, w :: pending⟩ :: rest) s (.error (.refused cause)) :=
  ⟨_, .refused h hcause, rfl⟩

theorem push (h : s.color w = .white) (hnext : edges w = .ok next)
    (hrest : Resumes edges (⟨w, next⟩ :: ⟨v, pending⟩ :: rest) (s.enter w) outcome) :
    Resumes edges (⟨v, w :: pending⟩ :: rest) s outcome := by
  obtain ⟨ended, hinner, hended⟩ := hrest
  rw [List.map_cons, List.reverse_cons] at hinner
  cases ended with
  | error interrupt => exact ⟨_, .stopped h hnext hinner, hended⟩
  | ok t =>
    obtain ⟨ended, houter, hended⟩ := hended
    exact ⟨ended, .white h hnext hinner houter, hended⟩

end Resumes

/-! ## A walk and the recursion -/

/-- A search and a walk have got equally far. -/
structure Mirrors (edges : α → Except ε (List α)) (roots : List α) (s : Search α)
    (unvisited : List α) (path : List (Frame α)) (finished : List α) : Prop where
  order_eq : s.order = finished.reverse
  nodup : unvisited.Nodup
  gray_iff : ∀ v, s.color v = .gray ↔ v ∈ path.map Frame.vertex
  white_iff : ∀ v, Reaches edges roots v → (s.color v = .white ↔ v ∈ unvisited)

namespace Mirrors

variable {s : Search α} {unvisited finished : List α} {path rest : List (Frame α)} {v w : α}
  {next pending : List α}

omit [DecidableEq α] in
theorem withPending (h : Mirrors edges roots s unvisited (⟨v, w :: pending⟩ :: rest) finished) :
    Mirrors edges roots s unvisited (⟨v, pending⟩ :: rest) finished :=
  ⟨h.order_eq, h.nodup, h.gray_iff, h.white_iff⟩

theorem enter (h : Mirrors edges roots s unvisited path finished) :
    Mirrors edges roots (s.enter w) (unvisited.erase w) (⟨w, next⟩ :: path) finished where
  order_eq := h.order_eq
  nodup := h.nodup.erase w
  gray_iff u := by
    rw [List.map_cons, List.mem_cons, Search.enter]
    by_cases huw : u = w
    · simp [huw]
    · simp only [Function.update_of_ne huw, h.gray_iff, huw, false_or]
  white_iff u hu := by
    rw [h.nodup.mem_erase_iff, Search.enter]
    by_cases huw : u = w
    · simp [huw]
    · simp only [Function.update_of_ne huw, h.white_iff u hu, ne_eq, huw, not_false_iff, true_and]

theorem leave (h : Mirrors edges roots s unvisited (⟨v, []⟩ :: rest) finished)
    (ht : Threaded edges roots (⟨v, []⟩ :: rest)) :
    Mirrors edges roots (s.leave v) unvisited rest (v :: finished) where
  order_eq := by rw [Search.leave, h.order_eq, List.reverse_cons]
  nodup := h.nodup
  gray_iff u := by
    rw [Search.leave]
    by_cases huv : u = v
    · have hoff : v ∉ rest.map Frame.vertex := (List.nodup_cons.mp ht.nodup).1
      simp only [huv, Function.update_self, reduceCtorEq, false_iff]
      exact hoff
    · simp only [Function.update_of_ne huv, h.gray_iff, List.map_cons, List.mem_cons, huv, false_or]
  white_iff u hu := by
    rw [Search.leave]
    by_cases huv : u = v
    · have hgray : s.color u = .gray := (h.gray_iff u).mpr (by simp [huv])
      have hvisited : u ∉ unvisited := fun hmem => by
        simp [(h.white_iff u hu).mpr hmem] at hgray
      simp only [huv, Function.update_self, reduceCtorEq, false_iff]
      exact huv ▸ hvisited
    · simp only [Function.update_of_ne huv, h.white_iff u hu]

omit [DecidableEq α] in
/-- What is reached, and neither unvisited nor on the path, is finished. -/
theorem black (h : Mirrors edges roots s unvisited path finished) (hw : Reaches edges roots w)
    (hoff : w ∉ path.map Frame.vertex) (hold : w ∉ unvisited) : s.color w = .black := by
  cases hcolor : s.color w with
  | white => exact absurd ((h.white_iff w hw).mp hcolor) hold
  | gray => exact absurd ((h.gray_iff w).mp hcolor) hoff
  | black => rfl

end Mirrors

/-- The state of a finished walk mirrors that of the search. -/
def MirrorsEnd (edges : α → Except ε (List α)) (roots : List α) (s : Search α)
    (state : List α × List α) : Prop :=
  Mirrors edges roots s state.1 [] state.2

/-- What is left of the recursion ends as the walk does. -/
theorem resumes_visit {unvisited finished : List α} {path : List (Frame α)} {s : Search α}
    (ht : Threaded edges roots path) (hm : Mirrors edges roots s unvisited path finished) :
    ∃ outcome, Resumes edges path s outcome ∧
      Agree Eq (MirrorsEnd edges roots) outcome (visit edges unvisited path finished) := by
  -- By the steps of the walk: each is a rule of the recursion.
  fun_induction visit edges unvisited path finished generalizing s with
  | case1 unvisited finished => exact ⟨.ok s, rfl, .ok hm⟩
  | case2 unvisited finished v rest ih =>
    obtain ⟨outcome, hrest, hagree⟩ := ih ht.finish (hm.leave ht)
    exact ⟨outcome, hrest.finish, hagree⟩
  | case3 unvisited finished v w pending rest hon =>
    exact ⟨_, .gray ((hm.gray_iff w).mpr hon) hon, .error rfl⟩
  | case4 unvisited finished v w pending rest hoff hfresh cause hcause =>
    exact ⟨_, .refused ((hm.white_iff w ht.reaches_next).mpr hfresh) hcause, .error rfl⟩
  | case5 unvisited finished v w pending rest hoff hfresh next hnext ih =>
    obtain ⟨outcome, hrest, hagree⟩ := ih (ht.push hoff hnext) hm.withPending.enter
    exact ⟨outcome, .push ((hm.white_iff w ht.reaches_next).mpr hfresh) hnext hrest, hagree⟩
  | case6 unvisited finished v w pending rest hoff hold ih =>
    obtain ⟨outcome, hrest, hagree⟩ := ih ht.skip hm.withPending
    exact ⟨outcome, .black (hm.withPending.black ht.reaches_next hoff hold) hrest, hagree⟩

/-- The search from some roots ends as the walk from them does. -/
theorem explores_visitRoots {unvisited finished left : List α} {s : Search α}
    (hleft : ∀ root ∈ left, root ∈ roots) (hm : Mirrors edges roots s unvisited [] finished) :
    ∃ outcome, Explores edges [] left s outcome ∧
      Agree Eq (MirrorsEnd edges roots) outcome (visitRoots edges unvisited finished left) := by
  induction left generalizing unvisited finished s with
  | nil => exact ⟨.ok s, .done, .ok hm⟩
  | cons root left ih =>
    have hroot : Reaches edges roots root := ⟨root, hleft root List.mem_cons_self, .refl⟩
    have hrest := fun other h => hleft other (List.mem_cons_of_mem _ h)
    unfold visitRoots
    by_cases hfresh : root ∈ unvisited
    · rw [if_pos hfresh]
      have hwhite := (hm.white_iff root hroot).mpr hfresh
      cases hnext : edges root with
      | error cause => exact ⟨_, .refused hwhite hnext, .error rfl⟩
      | ok next =>
        have hentered : Mirrors edges roots (s.enter root) (unvisited.erase root) [⟨root, next⟩]
            finished := hm.enter
        obtain ⟨outcome, ⟨ended, hinner, hended⟩, hagree⟩ :=
          resumes_visit (.start hroot hnext) hentered
        dsimp only
        generalize visit edges (unvisited.erase root) [⟨root, next⟩] finished = walk at hagree
        cases ended with
        | error interrupt =>
          obtain rfl := hended
          cases hagree with
          | error h => exact ⟨_, .stopped hwhite hnext hinner, .error h⟩
        | ok t =>
          obtain rfl := hended
          cases hagree with
          | ok h =>
            obtain ⟨outcome, houter, hagree⟩ := ih hrest h
            exact ⟨outcome, .white hwhite hnext hinner houter, hagree⟩
    · rw [if_neg hfresh]
      obtain ⟨outcome, hexplores, hagree⟩ := ih hrest hm
      exact ⟨outcome, .black (hm.black hroot List.not_mem_nil hfresh) hexplores, hagree⟩

/-- The recursive search ends, and its outcome is that of the walk. -/
theorem searches_iff (hs : Spans vertices edges roots)
    {outcome : Except (Interrupt ε α) (List α)} :
    Searches edges roots outcome ↔ outcome = postorder vertices edges roots := by
  have hm : Mirrors edges roots .start vertices [] [] :=
    ⟨rfl, hs.nodup, by simp [Search.start], fun v hv => by simp [Search.start, hs.mem v hv]⟩
  obtain ⟨ended, hexplores, hagree⟩ := explores_visitRoots (fun _ h => h) hm
  have hended : ended.map Search.order = postorder vertices edges roots := by
    unfold postorder
    generalize visitRoots edges vertices [] roots = walk at hagree
    cases hagree with
    | error h => exact congrArg Except.error h
    | ok h => exact congrArg Except.ok h.order_eq
  constructor
  · rintro ⟨ended', hexplores', rfl⟩
    rw [hexplores'.unique hexplores, hended]
  · rintro rfl
    exact ⟨ended, hexplores, hended.symm⟩

/-- The walk has the outcome of the recursive search on every graph of which the roots reach a
finite part, whatever list of vertices holds that part. It finishes exactly if the successors of all
that the roots lead to are known and no cycle is within reach; then it lists all of that in
postorder, and otherwise it names what stops it. -/
theorem postorder_search (edges : α → Except ε (List α)) (roots : List α)
    (hfinite : {v | Reaches edges roots v}.Finite) :
    (∃ vertices, Spans vertices edges roots) ∧ ∀ vertices, Spans vertices edges roots →
      (∀ outcome, Searches edges roots outcome ↔ outcome = postorder vertices edges roots) ∧
      ((∃ order, postorder vertices edges roots = .ok order) ↔
        (∀ v, Reaches edges roots v → ∃ next, edges v = .ok next) ∧
          ¬ ∃ cycle, Closes (Leads edges) cycle ∧ ∀ v ∈ cycle, Reaches edges roots v) ∧
      (∀ order, postorder vertices edges roots = .ok order → Postordered edges roots order) ∧
      ∀ interrupt, postorder vertices edges roots = .error interrupt →
        Stops edges roots interrupt := by
  have hlist : Spans hfinite.toFinset.toList edges roots :=
    ⟨Finset.nodup_toList _, fun v hv => Finset.mem_toList.mpr (hfinite.mem_toFinset.mpr hv)⟩
  refine ⟨⟨_, hlist⟩, fun vertices hs =>
    ⟨fun outcome => searches_iff hs, postorder_eq_ok_iff_acyclic hs, ?_, ?_⟩⟩
  · exact fun order h => postordered_of_postorder hs h
  · exact fun interrupt h => stops_of_postorder h

/-- A vertex leads to two others, and both lead to a fourth one, which leads back to these. -/
def diamond (back : List (Fin 4)) : Fin 4 → Except Empty (List (Fin 4))
  | 0 => .ok [1, 2]
  | 1 => .ok [3, 3]
  | 2 => .ok [3]
  | 3 => .ok back

theorem postorder_search_diamond :
    {v | Reaches (diamond []) [2, 0, 2] v}.Finite ∧
    Searches (diamond []) [2, 0, 2] (.ok [3, 2, 1, 0]) ∧
    {v | Reaches (diamond [1]) [2, 0, 2] v}.Finite ∧
    Searches (diamond [1]) [2, 0, 2] (.error (.cycle [3, 1, 3])) := by
  have hall : ∀ v : Fin 4, v ∈ [0, 1, 2, 3] := by decide
  have hspans (back : List (Fin 4)) : Spans [0, 1, 2, 3] (diamond back) [2, 0, 2] :=
    ⟨by decide, fun v _ => hall v⟩
  have hopen := (postorder_search (diamond []) [2, 0, 2] (Set.toFinite _)).2 _ (hspans [])
  have hclosed := (postorder_search (diamond [1]) [2, 0, 2] (Set.toFinite _)).2 _ (hspans [1])
  exact ⟨Set.toFinite _, (hopen.1 _).mpr (by cbv), Set.toFinite _, (hclosed.1 _).mpr (by cbv)⟩

end Patchbay.DepthFirst
