import MvcBackend.AnsweredRuns
import MvcBackend.JsonIds

/-!
The domain tables are what the acknowledged writes make of them: whatever else
was requested, failed, or was lost in between, and however often the process
was started again.
-/

namespace MvcBackend.AcknowledgedWrites

open MvcBackend.JsonValues
open MvcBackend.DataModel
open MvcBackend.Database
open MvcBackend.Authentication
open MvcBackend.ApiParse
open MvcBackend.Endpoints
open MvcBackend.EndpointSteps
open MvcBackend.ApiRouter
open MvcBackend.HttpHandler
open MvcBackend.RouterRefinement
open MvcBackend.HandlerRefinement
open MvcBackend.RequestAtomicity
open MvcBackend.JsonIds
open MvcBackend.System
open MvcBackend.AnsweredRuns
open MvcBackend.Library.Machines
open MvcBackend.Library.Transaction

/-- A write as its client knows it. -/
structure Write where
  endpoint : IEndpoint
  payload : Json
  answer : Json

/-- The write that a client learns from the answer to its own request. -/
def acknowledged (moment : Moment) : Option HttpResponse → Option Write
  | some ⟨_, .json (.object [(key, j)]), _⟩ =>
      match moment.event with
      | .start _ _ => none
      | .request req _ =>
          match splitRequestPath req, readPayload moment.libraries req with
          | .ok path, .ok payload =>
              match apiParse path with
              | .ok (some (.object e)) =>
                  if key = str "Ok" ∧ e ∈ writers then some ⟨e, payload, j⟩ else none
              | _ => none
          | _, _ => none
  | _ => none

/-- The endpoint is called once more, by nobody, and answers as it did. -/
def Redoes (db : Db) (write : Write) (db' : Db) : Prop :=
  ∃ w, write.endpoint.call ⟨write.payload, none⟩ (World.idle db []) =
    .ok (some ⟨write.answer⟩) w ∧ w.store = db'

variable {t t' u : Tables} {config : AuthConfig} {libraries : Libraries} {req : HttpRequest}
  {s : ServerState} {faults : List (Option Str)}

/-- A write does not look at roles and users. -/
theorem commits_of_sameDomain {payload j : Json} {e : IEndpoint} (h : Commits payload t e j t')
    (hsame : SameDomain t u) : ∃ u', Commits payload u e j u' ∧ SameDomain t' u' := by
  obtain ⟨roles, users, projects, workers, tasks⟩ := t
  obtain ⟨roles', users', projects', workers', tasks'⟩ := u
  obtain ⟨rfl, rfl, rfl⟩ := hsame
  cases h with
  | addProject hname => exact ⟨_, .addProject hname, rfl, rfl, rfl⟩
  | addWorker hname => exact ⟨_, .addWorker hname, rfl, rfl, rfl⟩
  | addTask hname hid hproject => exact ⟨_, .addTask hname hid hproject, rfl, rfl, rfl⟩
  | assignTask hid hworkerId htask hworker =>
      exact ⟨_, .assignTask hid hworkerId htask hworker, rfl, rfl, rfl⟩
  | unassignTask hid htask => exact ⟨_, .unassignTask hid htask, rfl, rfl, rfl⟩
  | delProject hid hproject => exact ⟨_, .delProject hid hproject, rfl, rfl, rfl⟩

theorem redoes_of_commits {db : Db} {payload j : Json} {e : IEndpoint}
    (h : Commits payload db.val e j t') :
    ∃ db', Redoes db ⟨e, payload, j⟩ db' ∧ db'.val = t' := by
  have hcommits : Commits (EndpointInput.mk payload none).payload db.val e j t' := h
  obtain ⟨w, hrun, hstore⟩ := call_of_commits hcommits
  exact ⟨w.store, ⟨w, hrun, rfl⟩, hstore⟩

theorem acknowledged_of_writes {actor : Option Actor} {path : ApiPath} {e : IEndpoint}
    {payload j : Json} (h : Writes config libraries req s faults actor path e payload j) :
    acknowledged ⟨libraries, .request req faults⟩ (answer libraries s (.request req faults)) =
      some ⟨e, payload, j⟩ := by
  rw [h.answered]
  simp [acknowledged, okResponse, h.split, h.read, matchedEndpoint_iff.mp h.matched,
    h.commits.mem_writers]

theorem acknowledged_of_reads (h : Reads libraries req s faults) :
    acknowledged ⟨libraries, .request req faults⟩ (answer libraries s (.request req faults)) =
      none := by
  rcases hanswer : answer libraries s (.request req faults) with _ | response
  · rfl
  · rw [acknowledged.eq_def]
    split
    · next status key j headers heq =>
        simp only
        split
        · next path payload hpath hpayload =>
            split
            · next e hparse =>
                split
                · next hboth =>
                    obtain rfl : response = _ := Option.some.inj heq
                    obtain ⟨rfl, he⟩ := hboth
                    exact absurd he (h.answered _ hanswer ⟨j, rfl⟩ path e hpath
                      (matchedEndpoint_iff.mpr hparse))
                · rfl
            · rfl
        · rfl
    · rfl

/-- Starts leave the domain tables alone. -/
theorem sameDomain_start (libraries : Libraries) (s : ServerState) (config : AuthConfig)
    (faults : List (Option Str)) :
    SameDomain s.db.val (next libraries s (.start config faults)).db.val := by
  rcases next_start_cases libraries s config faults with ⟨-, hdb⟩ | ⟨-, hdb | hdb⟩
  · rw [hdb]
    exact ⟨rfl, rfl, rfl⟩
  · rw [hdb]
    exact ⟨rfl, rfl, rfl⟩
  · rw [hdb]
    exact ⟨rfl, rfl, rfl⟩

/-- One event is on record and can be done again, or it changes no domain table. -/
theorem recorded_or_silent {db : Db} (hsame : SameDomain db.val s.db.val) (moment : Moment) :
    (acknowledged moment (server.answer s moment) = none ∧
        SameDomain db.val (server.next s moment).db.val) ∨
      ∃ write db', acknowledged moment (server.answer s moment) = some write ∧
        Redoes db write db' ∧ SameDomain db'.val (server.next s moment).db.val := by
  obtain ⟨libraries, event⟩ := moment
  rcases event with ⟨config, faults⟩ | ⟨req, faults⟩
  · exact .inl ⟨rfl, hsame.trans (sameDomain_start libraries s config faults)⟩
  · have hcases : (∃ config actor path e payload j,
        Writes config libraries req s faults actor path e payload j) ∨
          Reads libraries req s faults := by
      rcases hserver : s.server with _ | config
      · exact .inr (reads_of_down libraries req faults hserver)
      · rcases writes_or_reads libraries req faults hserver with hwrites | hreads
        · exact .inl ⟨config, hwrites⟩
        · exact .inr hreads
    rcases hcases with ⟨config, actor, path, e, payload, j, hwrites⟩ | hreads
    · obtain ⟨u', hcommits, hsame'⟩ := commits_of_sameDomain hwrites.commits hsame.symm
      obtain ⟨db', hredoes, rfl⟩ := redoes_of_commits hcommits
      exact .inr ⟨_, db', acknowledged_of_writes hwrites, hredoes, hsame'.symm⟩
    · refine .inl ⟨acknowledged_of_reads hreads, ?_⟩
      show SameDomain db.val (next libraries s (.request req faults)).db.val
      rw [hreads.same]
      exact hsame

theorem replays_run (moments : List Moment) :
    ∃ db, Replays Redoes Db.empty (server.recorded acknowledged pristine moments) db ∧
      SameDomain db.val (server.run pristine moments).db.val := by
  have hpristine : SameDomain Db.empty.val pristine.db.val := ⟨rfl, rfl, rfl⟩
  exact server.replays_recorded (R := fun (db : Db) (s : ServerState) => SameDomain db.val s.db.val)
    (fun _ _ moment hsame => recorded_or_silent hsame moment) hpristine moments

theorem Redoes.unique {db db' db'' : Db} {write : Write} (h : Redoes db write db')
    (h' : Redoes db write db'') : db' = db'' := by
  obtain ⟨w, hrun, rfl⟩ := h
  obtain ⟨w', hrun', rfl⟩ := h'
  rw [hrun] at hrun'
  obtain rfl : w = w' := by simpa using hrun'
  rfl

/-- No write is lost or made twice, and none is made that is not acknowledged:
done again on an empty database, one after the other, the acknowledged writes
are answered as they were and leave the same projects, tasks and workers. So two
servers that acknowledged the same writes hold the same. -/
theorem acknowledged_writes_rebuild (moments : List Moment) :
    (∃ db, Replays Redoes Db.empty (server.recorded acknowledged pristine moments) db ∧
      SameDomain db.val (server.run pristine moments).db.val) ∧
    ∀ moments', server.recorded acknowledged pristine moments' =
        server.recorded acknowledged pristine moments →
      SameDomain (server.run pristine moments').db.val (server.run pristine moments).db.val := by
  obtain ⟨db, hreplays, hsame⟩ := replays_run moments
  refine ⟨⟨db, hreplays, hsame⟩, fun moments' hrecord => ?_⟩
  obtain ⟨db', hreplays', hsame'⟩ := replays_run moments'
  rw [hrecord] at hreplays'
  obtain rfl : db' = db := hreplays'.unique (fun _ _ _ _ h h' => h.unique h') hreplays
  exact hsame'.symm.trans hsame

end MvcBackend.AcknowledgedWrites
