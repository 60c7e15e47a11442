import MvcBackend.RouterRefinement

/-!
Which paths a route table accepts. Where no entry hides another one, the order
of the table does not matter, and the table of the API is of that kind.
-/

namespace MvcBackend.ExactRouting

open MvcBackend.JsonValues
open MvcBackend.DataModel
open MvcBackend.Database
open MvcBackend.ApiParse
open MvcBackend.ApiParse.Parser
open MvcBackend.Endpoints
open MvcBackend.ApiRouter
open MvcBackend.RouteTables
open MvcBackend.RouterRefinement
open MvcBackend.Library.OrderedChoice
open MvcBackend.Library.Transaction

variable {ρ : Type}

/-- The tokens match the segments in full, with these arguments. -/
inductive Matches : List Token → List Str → List (Val ρ) → Prop where
  | nil : Matches [] [] []
  | lit (k : Str) {tokens : List Token} {segments : List Str} {args : List (Val ρ)}
      (rest : Matches tokens segments args) : Matches (.lit k :: tokens) (k :: segments) args
  | int {segment : Str} {n : Int} {tokens : List Token} {segments : List Str}
      {args : List (Val ρ)} (hsegment : stoi segment = .ok n)
      (rest : Matches tokens segments args) :
      Matches (.int :: tokens) (segment :: segments) (.int n :: args)
  | string (segment : Str) {tokens : List Token} {segments : List Str} {args : List (Val ρ)}
      (rest : Matches tokens segments args) :
      Matches (.string :: tokens) (segment :: segments) (.string segment :: args)

def MatchesFull (route : Route ρ) (segments : List Str) : Prop :=
  ∃ args : List (Val ρ), Matches route.tokens segments args

/-- No entry matches a proper prefix of what another entry matches in full, and
no two entries match the same in full. -/
structure Separated (table : List (Route ρ)) : Prop where
  prefixes : ∀ i j : Fin table.length, i ≠ j → ∀ segments rest, rest ≠ [] →
    ¬ (MatchesFull (table.get i) segments ∧ MatchesFull (table.get j) (segments ++ rest))
  disjoint : ∀ i j : Fin table.length, i ≠ j → ∀ segments,
    ¬ (MatchesFull (table.get i) segments ∧ MatchesFull (table.get j) segments)

theorem matches_iff {tokens : List Token} {segments : List Str} {args : List (Val ρ)} :
    Matches tokens segments args ↔
      readAll (tokens.map tokenReader) segments = some (args, []) := by
  constructor
  · intro h
    induction h with
    | nil => rfl
    | lit k rest ih => simp [readAll, tokenReader, ih]
    | int hsegment rest ih => simp [readAll, tokenReader, hsegment, ih, Except.toOption]
    | string segment rest ih => simp [readAll, tokenReader, ih]
  · intro h
    induction tokens generalizing segments args with
    | nil =>
        obtain ⟨rfl, rfl⟩ : args = [] ∧ segments = [] := by
          simpa [readAll, eq_comm] using h
        exact .nil
    | cons token tokens ih =>
        cases segments with
        | nil => simp [readAll] at h
        | cons segment segments =>
            simp only [List.map_cons, readAll, Option.bind_eq_some_iff, Option.map_eq_some_iff,
              Prod.exists, Prod.mk.injEq] at h
            obtain ⟨head, hhead, tail, _, htail, rfl, rfl⟩ := h
            have rest := ih htail
            cases token with
            | lit k =>
                simp only [tokenReader] at hhead
                split at hhead
                · next hk =>
                    subst hk
                    cases hhead
                    exact .lit segment rest
                · cases hhead
            | int =>
                simp only [tokenReader, Option.map_eq_some_iff] at hhead
                obtain ⟨n, hn, rfl⟩ := hhead
                cases hstoi : stoi segment with
                | error e => simp [hstoi, Except.toOption] at hn
                | ok m =>
                    obtain rfl : m = n := by simpa [hstoi, Except.toOption] using hn
                    exact .int hstoi rest
            | string =>
                cases hhead
                exact .string segment rest

theorem full_iff {route : Route ρ} {segments : List Str} {object : ρ} :
    (routeRecogniser route).Full segments object ↔
      ∃ args, Matches route.tokens segments args ∧ route.make args = object := by
  simp [Recogniser.Full, routeRecogniser, inSequence, matches_iff]

theorem hides_iff {r s : Route ρ} :
    (routeRecogniser r).Hides (routeRecogniser s) ↔
      ∃ segments rest, MatchesFull r segments ∧ MatchesFull s (segments ++ rest) := by
  constructor
  · rintro ⟨segments, rest, _, _, hr, hs⟩
    obtain ⟨args, hargs, -⟩ := full_iff.mp hr
    obtain ⟨args', hargs', -⟩ := full_iff.mp hs
    exact ⟨segments, rest, ⟨args, hargs⟩, args', hargs'⟩
  · rintro ⟨segments, rest, ⟨args, hargs⟩, args', hargs'⟩
    exact ⟨segments, rest, _, _, full_iff.mpr ⟨args, hargs, rfl⟩, full_iff.mpr ⟨args', hargs', rfl⟩⟩

theorem Separated.not_hides {table : List (Route ρ)} (h : Separated table)
    {i j : Fin table.length} (hne : i ≠ j) :
    ¬ (routeRecogniser (table.get i)).Hides (routeRecogniser (table.get j)) := by
  rw [hides_iff]
  rintro ⟨segments, rest, hi, hj⟩
  cases rest with
  | nil => exact h.disjoint i j hne segments ⟨hi, by simpa using hj⟩
  | cons segment rest => exact h.prefixes i j hne segments _ (by simp) ⟨hi, hj⟩

theorem Separated.unambiguous {table : List (Route ρ)} (h : Separated table) :
    Unambiguous (table.map routeRecogniser) := by
  rw [Unambiguous, List.pairwise_map, List.pairwise_iff_get]
  intro i j hlt
  exact ⟨h.not_hides (Fin.ne_of_lt hlt), h.not_hides (Fin.ne_of_gt hlt)⟩

theorem rootParse_eq_some_iff {table : List (Route ρ)} (h : Separated table) (path : ApiPath)
    (v : Val ρ) :
    rootParse (apiParsers table) path = .ok (some v) ↔
      ∃ segments, path = str "api" :: segments ∧ ∃ route ∈ table, ∃ args,
        Matches route.tokens segments args ∧ v = .object (route.make args) := by
  rw [rootParse_api]
  cases path with
  | nil => simp [apiObject]
  | cons segment segments =>
      by_cases hsegment : segment = str "api"
      · have hchoose : ∀ object, chooseFull (table.map routeRecogniser) segments = some object ↔
            ∃ route ∈ table, ∃ args, Matches route.tokens segments args ∧
              route.make args = object := by
          intro object
          simp [chooseFull_eq_some_iff h.unambiguous, full_iff]
        simp only [apiObject, hsegment, ↓reduceIte, Except.ok.injEq, Option.map_eq_some_iff, hchoose]
        constructor
        · rintro ⟨_, ⟨route, hroute, args, hargs, rfl⟩, rfl⟩
          exact ⟨segments, rfl, route, hroute, args, hargs, rfl⟩
        · rintro ⟨_, hpath, route, hroute, args, hargs, rfl⟩
          cases hpath
          exact ⟨_, ⟨route, hroute, args, hargs, rfl⟩, rfl⟩
      · simp [apiObject, hsegment]

theorem rootParse_perm {table table' : List (Route ρ)} (h : Separated table)
    (hperm : table.Perm table') (path : ApiPath) :
    rootParse (apiParsers table') path = rootParse (apiParsers table) path := by
  have hobject : apiObject table' path = apiObject table path := by
    cases path with
    | nil => rfl
    | cons segment segments =>
        simp only [apiObject, chooseFull_perm h.unambiguous (hperm.map routeRecogniser)]
  rw [rootParse_api, rootParse_api, hobject]

/-! ### The table of the API -/

theorem MatchesFull.head {route : Route ρ} {k : Str} {segments : List Str}
    (h : MatchesFull route segments) (hk : route.tokens.head? = some (.lit k)) :
    segments.head? = some k := by
  obtain ⟨args, hargs⟩ := h
  cases htokens : route.tokens with
  | nil => simp [htokens] at hk
  | cons token tokens =>
      obtain rfl : token = .lit k := by simpa [htokens] using hk
      rw [htokens] at hargs
      cases hargs
      rfl

/-- Entries that start with different literals do not get in each other's way. -/
theorem separated_of_heads {table : List (Route ρ)}
    (hlit : ∀ route ∈ table, ∃ k, route.tokens.head? = some (.lit k))
    (hnodup : (table.map fun route => route.tokens.head?).Nodup) : Separated table := by
  have hhead : ∀ i j : Fin table.length, i ≠ j → ∀ segments rest,
      ¬ (MatchesFull (table.get i) segments ∧ MatchesFull (table.get j) (segments ++ rest)) := by
    rintro i j hne segments rest ⟨hi, hj⟩
    obtain ⟨k, hk⟩ := hlit _ (table.get_mem i)
    obtain ⟨k', hk'⟩ := hlit _ (table.get_mem j)
    obtain ⟨tail, rfl⟩ := List.head?_eq_some_iff.mp (hi.head hk)
    obtain rfl : k = k' := by simpa using hj.head hk'
    rw [List.Nodup, List.pairwise_map, List.pairwise_iff_get] at hnodup
    rcases Nat.lt_or_gt_of_ne (Fin.val_ne_of_ne hne) with hlt | hlt
    · exact hnodup i j hlt (hk.trans hk'.symm)
    · exact hnodup j i hlt (hk'.trans hk.symm)
  constructor
  · intro i j hne segments rest _
    exact hhead i j hne segments rest
  · intro i j hne segments
    simpa using hhead i j hne segments []

theorem separated_routes : Separated routes := by
  apply separated_of_heads
  · simp [routes]
  · decide

/-- The paths of an endpoint; there is no route to `get_roles`. -/
def PathOf (path : ApiPath) : IEndpoint → Prop
  | .getProjects => path = [str "api", str "get_projects"]
  | .getProject p => ∃ segment, path = [str "api", str "get_project", segment] ∧
      stoi segment = .ok p.val
  | .getWorker w => ∃ segment, path = [str "api", str "get_worker", segment] ∧
      stoi segment = .ok w.val
  | .getTask t => ∃ segment, path = [str "api", str "get_task", segment] ∧
      stoi segment = .ok t.val
  | .addProject => path = [str "api", str "add_project"]
  | .delProject => path = [str "api", str "del_project"]
  | .getUsers => path = [str "api", str "get_users"]
  | .getRoles => False
  | .addTask => path = [str "api", str "add_task"]
  | .assignTask => path = [str "api", str "assign_task"]
  | .unassignTask => path = [str "api", str "unassign_task"]
  | .addWorker => path = [str "api", str "add_worker"]
  | .getWorkers => path = [str "api", str "get_workers"]
  | .debug => path = [str "api", str "debug"]

theorem matches_name {k : Str} {segments : List Str} {args : List (Val ρ)} :
    Matches [.lit k] segments args ↔ segments = [k] ∧ args = [] := by
  constructor
  · rintro (_ | ⟨_, ⟨⟩⟩)
    exact ⟨rfl, rfl⟩
  · rintro ⟨rfl, rfl⟩
    exact .lit k .nil

theorem matches_nameId {k : Str} {segments : List Str} {args : List (Val ρ)} :
    Matches [.lit k, .int] segments args ↔
      ∃ segment n, segments = [k, segment] ∧ stoi segment = .ok n ∧ args = [.int n] := by
  constructor
  · rintro (_ | ⟨_, _ | _ | ⟨hn, ⟨⟩⟩⟩)
    exact ⟨_, _, rfl, hn, rfl⟩
  · rintro ⟨segment, n, rfl, hn, rfl⟩
    exact .lit k (.int hn .nil)

theorem apiParse_name (i : Nat) {route : Route IEndpoint} {k : Str} {path : ApiPath}
    (hroute : routes[i]? = some route) (htokens : route.tokens = [.lit k])
    (hpath : path = [str "api", k]) :
    apiParse path = .ok (some (.object (route.make []))) := by
  rw [apiParse, rootParse_eq_some_iff separated_routes]
  refine ⟨[k], hpath, route, List.mem_of_getElem? hroute, [], ?_, rfl⟩
  rw [htokens]
  exact matches_name.mpr ⟨rfl, rfl⟩

theorem apiParse_nameId (i : Nat) {route : Route IEndpoint} {k : Str} {path : ApiPath} {n : Int}
    (hroute : routes[i]? = some route) (htokens : route.tokens = [.lit k, .int])
    (hpath : ∃ segment, path = [str "api", k, segment] ∧ stoi segment = .ok n) :
    apiParse path = .ok (some (.object (route.make [.int n]))) := by
  obtain ⟨segment, rfl, hn⟩ := hpath
  rw [apiParse, rootParse_eq_some_iff separated_routes]
  refine ⟨[k, segment], rfl, route, List.mem_of_getElem? hroute, [.int n], ?_, rfl⟩
  rw [htokens]
  exact matches_nameId.mpr ⟨segment, n, rfl, hn, rfl⟩

theorem pathOf_of_apiParse {path : ApiPath} {e : IEndpoint}
    (h : apiParse path = .ok (some (.object e))) : PathOf path e := by
  rw [apiParse, rootParse_eq_some_iff separated_routes] at h
  obtain ⟨segments, rfl, route, hroute, args, hargs, he⟩ := h
  simp only [routes, List.mem_cons, List.not_mem_nil, or_false] at hroute
  rcases hroute with rfl | rfl | rfl | rfl | rfl | rfl | rfl | rfl | rfl | rfl | rfl | rfl | rfl
  all_goals
    cases he
    first
      | obtain ⟨rfl, rfl⟩ := matches_name.mp hargs
        exact rfl
      | obtain ⟨segment, n, rfl, hn, rfl⟩ := matches_nameId.mp hargs
        exact ⟨segment, rfl, hn⟩

theorem apiParse_of_pathOf {path : ApiPath} {e : IEndpoint} (h : PathOf path e) :
    apiParse path = .ok (some (.object e)) := by
  cases e with
  | getProjects => exact apiParse_name 0 rfl rfl h
  | getProject p => exact apiParse_nameId 1 rfl rfl h
  | getWorker w => exact apiParse_nameId 2 rfl rfl h
  | getTask t => exact apiParse_nameId 3 rfl rfl h
  | addProject => exact apiParse_name 4 rfl rfl h
  | delProject => exact apiParse_name 5 rfl rfl h
  | getUsers => exact apiParse_name 6 rfl rfl h
  | getRoles => exact h.elim
  | addTask => exact apiParse_name 7 rfl rfl h
  | assignTask => exact apiParse_name 8 rfl rfl h
  | unassignTask => exact apiParse_name 9 rfl rfl h
  | addWorker => exact apiParse_name 10 rfl rfl h
  | getWorkers => exact apiParse_name 11 rfl rfl h
  | debug => exact apiParse_name 12 rfl rfl h

/-- Routing is exact for every separated table, in any order, and the table of
the API is separated: a path reaches an endpoint if and only if it is its path. -/
theorem exact_routing :
    (∀ (ρ : Type) (table : List (Route ρ)), Separated table → ∀ path : ApiPath,
      (∃ result, rootParse (apiParsers table) path = .ok result ∧
        ∀ v, result = some v ↔
          ∃ segments, path = str "api" :: segments ∧ ∃ route ∈ table, ∃ args,
            Matches route.tokens segments args ∧ v = .object (route.make args)) ∧
      ∀ table', table.Perm table' →
        rootParse (apiParsers table') path = rootParse (apiParsers table) path) ∧
    Separated routes ∧
    ∀ (db : Db) (path : ApiPath) (e : IEndpoint),
      parse path (World.idle db []) = .ok (some e) (World.idle db []) ↔ PathOf path e := by
  refine ⟨fun ρ table h path => ⟨?_, fun table' hperm => rootParse_perm h hperm path⟩,
    separated_routes, fun db path e => ?_⟩
  · refine ⟨_, rootParse_api table path, fun v => ?_⟩
    rw [← rootParse_eq_some_iff h, rootParse_api]
    exact ⟨congrArg _, Except.ok.inj⟩
  · rw [(parse_observes path).run_ok rfl]
    constructor
    · intro h
      have hmatched : matchedEndpoint path = some e := by simpa using h
      exact pathOf_of_apiParse (matchedEndpoint_iff.mp hmatched)
    · intro h
      rw [matchedEndpoint_iff.mpr (apiParse_of_pathOf h)]

theorem exact_routing_reverse :
    rootParse (apiParsers routes.reverse) [str "api", str "get_task", str "7"] =
      rootParse (apiParsers routes) [str "api", str "get_task", str "7"] :=
  (exact_routing.1 IEndpoint routes separated_routes _).2 _ routes.reverse_perm.symm

end MvcBackend.ExactRouting
