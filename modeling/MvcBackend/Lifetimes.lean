import MvcBackend.AnsweredRuns
import MvcBackend.ConcurrentRequests
import MvcBackend.Library.Linearization

/-!
The process over its lifetimes: it is started, handles any number of requests
at the same time, and is killed at any point of this, again and again, also
between the commit of a request and its reply. Nothing can be told from a run in
which requests come one at a time.
-/

namespace MvcBackend.Lifetimes

open MvcBackend.JsonValues
open MvcBackend.DataModel
open MvcBackend.Database
open MvcBackend.Authentication
open MvcBackend.HttpHandler
open MvcBackend.System
open MvcBackend.AnsweredRuns
open MvcBackend.ConcurrentRequests
open MvcBackend.Library.Machines
open MvcBackend.Library.Serialization
open MvcBackend.Library.Serialization.Protocol (completing_spec delivered mem_completing_of_sent
  precedes_of_sent)
open MvcBackend.Library.Transaction

/-- A request, and the libraries as they are while it is handled. -/
structure Visit where
  libraries : Libraries
  client : Client

def Visit.moment (visit : Visit) : Moment :=
  ⟨visit.libraries, .request visit.client.req visit.client.faults⟩

/-- From a start of the process to the turn after which it is killed. A request
takes a step for its login, one for the rest of `handle` with the transaction of
its endpoint, and `req.reply` is a turn of its own. Killed within a step, the
process has made it if the transaction was committed, and else has not. -/
structure Life where
  libraries : Libraries
  config : AuthConfig
  faults : List (Option Str)
  visits : List Visit
  schedule : List (Turn (Fin visits.length))

section Crowd

variable {ι : Type} (config : AuthConfig) (visits : ι → Visit)

def crowd : Protocol ι Db Seen Answer where
  look i := loginPhase config (visits i).libraries (visits i).client
  act i := endpointPhase (visits i).libraries (visits i).client

theorem crowd_serial : (crowd config visits).Serial
    fun i seen => reachesTransaction (visits i).libraries (visits i).client seen where
  look_store i db := loginPhase_store config (visits i).libraries (visits i).client db
  look_act i j seen db := by
    obtain ⟨hroles, husers⟩ := endpointPhase_frame (visits j).libraries (visits j).client seen db
    exact loginPhase_congr config (visits i).libraries (visits i).client hroles husers
  quiet i seen h :=
    (protocol_serial config (visits i).libraries fun _ : ι => (visits i).client).quiet i seen h

theorem serve_crowd (i : ι) (db : Db) :
    (crowd config visits).serve i db =
      handled config (visits i).libraries (visits i).client db :=
  serve_eq_handled config (visits i).libraries (fun _ : ι => (visits i).client) i db

/-- What `handle` has returned for a client so far. -/
def returned : Progress Seen Answer → Option HttpResponse
  | .done (.ok response) => some response
  | _ => none

theorem next_eq_handled (visit : Visit) (db : Db) :
    server.next ⟨db, some config⟩ visit.moment =
      ⟨(handled config visit.libraries visit.client db).2, some config⟩ := by
  show next visit.libraries ⟨db, some config⟩ (.request visit.client.req visit.client.faults) = _
  simp only [next, handled, worldAfter]
  rcases handle config visit.libraries visit.client.req (World.idle db visit.client.faults) with
    ⟨response, w⟩ | ⟨e, w⟩
  · rfl
  · rfl

theorem answer_eq_handled (visit : Visit) (db : Db) :
    server.answer ⟨db, some config⟩ visit.moment =
      returned (.done (handled config visit.libraries visit.client db).1) := by
  show answer visit.libraries ⟨db, some config⟩ (.request visit.client.req visit.client.faults) = _
  simp only [answer, handled]
  rcases handle config visit.libraries visit.client.req (World.idle db visit.client.faults) with
    ⟨response, w⟩ | ⟨e, w⟩
  · rfl
  · rfl

variable [DecidableEq ι]

theorem inTurn_progress_of_not_mem {order : List ι} {i : ι} (hi : i ∉ order)
    (c : Snapshot ι Db Seen Answer) :
    ((crowd config visits).inTurn order c).progress i = c.progress i := by
  induction order generalizing c with
  | nil => rfl
  | cons j order ih =>
      obtain ⟨hne, hi⟩ := not_or.mp (mt List.mem_cons.mpr hi)
      have hput := ih hi (c.put j ((crowd config visits).serve j c.store).2
        (.done ((crowd config visits).serve j c.store).1))
      refine hput.trans ?_
      simp [Snapshot.put, hne]

/-- Clients that are served in turn are requests of a run, one after another. -/
theorem run_inTurn {order : List ι} (hnodup : order.Nodup) (c : Snapshot ι Db Seen Answer) :
    let moments := order.map fun i => (visits i).moment
    let end_ := (crowd config visits).inTurn order c
    server.run ⟨c.store, some config⟩ moments = ⟨end_.store, some config⟩ ∧
      server.transcript ⟨c.store, some config⟩ moments =
        order.map fun i => ((visits i).moment, returned (end_.progress i)) := by
  induction order generalizing c with
  | nil => exact ⟨rfl, rfl⟩
  | cons i order ih =>
      obtain ⟨hi, hnodup⟩ := List.nodup_cons.mp hnodup
      let c' := c.put i ((crowd config visits).serve i c.store).2
        (.done ((crowd config visits).serve i c.store).1)
      obtain ⟨hrun, htranscript⟩ := ih hnodup c'
      have hnext : server.next ⟨c.store, some config⟩ (visits i).moment =
          ⟨c'.store, some config⟩ := by
        rw [next_eq_handled, ← serve_crowd]
        rfl
      have hanswer : server.answer ⟨c.store, some config⟩ (visits i).moment =
          returned (((crowd config visits).inTurn order c').progress i) := by
        rw [answer_eq_handled, ← serve_crowd, inTurn_progress_of_not_mem config visits hi c']
        simp [c', Snapshot.put]
      simp only [List.map_cons, Machine.run_cons, Machine.transcript, hnext, hanswer]
      refine ⟨hrun, ?_⟩
      rw [htranscript]
      rfl

end Crowd

namespace Life

variable (life : Life) (db : Db)

/-- How far the clients are after these turns, if the process came up. -/
def reached (schedule : List (Turn (Fin life.visits.length))) :
    Except Db (Delivery (Fin life.visits.length) Db Seen Answer) :=
  match Authenticator.construct life.config (World.idle db life.faults) with
  | .error _ w => .error w.store
  | .ok _ w => .ok ((crowd life.config life.visits.get).deliver schedule (.start w.store))

/-- The replies that were sent in these turns; there is none to a request whose
`handle` threw. -/
def replies (schedule : List (Turn (Fin life.visits.length))) :
    List (Fin life.visits.length × HttpResponse) :=
  match life.reached db schedule with
  | .error _ => []
  | .ok d => d.sent.filterMap fun sent => (returned (.done sent.2)).map fun response =>
      (sent.1, response)

def dbAfter : Db :=
  match life.reached db life.schedule with
  | .error db' => db'
  | .ok d => d.now.store

/-- What `handle` returned for a client, whether or not that was sent. -/
def handled (i : Fin life.visits.length) : Option HttpResponse :=
  match life.reached db life.schedule with
  | .error _ => none
  | .ok d => returned (d.now.progress i)

/-- The clients whose requests made their last step, in the order of these steps. -/
def order : List (Fin life.visits.length) :=
  match Authenticator.construct life.config (World.idle db life.faults) with
  | .error _ _ => []
  | .ok _ w =>
      (crowd life.config life.visits.get).completing (steps life.schedule) (.start w.store)

def startMoment : Moment := ⟨life.libraries, .start life.config life.faults⟩

/-- The start and the handled requests one after another, with what `handle` returned. -/
def transcript : List (Moment × Option HttpResponse) :=
  (life.startMoment, none) ::
    (life.order db).map fun i => ((life.visits.get i).moment, life.handled db i)

def moments : List Moment := (life.transcript db).map Prod.fst

/-- What clients can tell of a life: nobody is replied to twice; a reply is what
`handle` returned in the order of the life; and whoever was replied to before
another request was looked at comes first in it. -/
structure Replied : Prop where
  nodup : (life.order db).Nodup
  once : ((life.replies db life.schedule).map Prod.fst).Nodup
  handled : ∀ i response, (i, response) ∈ life.replies db life.schedule →
    i ∈ life.order db ∧ life.handled db i = some response
  in_time : ∀ before after, life.schedule = before ++ after →
    ∀ i response j, (i, response) ∈ life.replies db before → .step j ∉ before →
      j ∈ life.order db → [i, j].Sublist (life.order db)

variable {life db}

theorem mem_replies {ι : Type} {sent : List (ι × Answer)} {i : ι} {response : HttpResponse} :
    (i, response) ∈ sent.filterMap (fun sent => (returned (.done sent.2)).map fun response =>
      (sent.1, response)) ↔ (i, .ok response) ∈ sent := by
  simp only [List.mem_filterMap, Option.map_eq_some_iff, Prod.mk.injEq]
  constructor
  · rintro ⟨⟨j, e | response'⟩, hsent, response'', hreturned, rfl, rfl⟩
    · cases hreturned
    · cases hreturned
      exact hsent
  · intro hsent
    exact ⟨(i, .ok response), hsent, response, rfl, rfl, rfl⟩

theorem replies_sublist {ι : Type} (sent : List (ι × Answer)) :
    ((sent.filterMap fun sent => (returned (.done sent.2)).map fun response =>
      (sent.1, response)).map Prod.fst).Sublist (sent.map Prod.fst) := by
  induction sent with
  | nil => exact List.Sublist.refl _
  | cons entry sent ih =>
      obtain ⟨i, e | response⟩ := entry
      · exact ih.cons i
      · exact ih.cons_cons i

theorem replied (life : Life) (db : Db) : life.Replied db := by
  rcases hrun : Authenticator.construct life.config (World.idle db life.faults) with
    ⟨u, w⟩ | ⟨e, w⟩
  · have hreached : ∀ schedule, life.reached db schedule =
        .ok ((crowd life.config life.visits.get).deliver schedule (.start w.store)) := by
      intro schedule
      rw [reached, hrun]
    have hreplies : ∀ schedule i response, (i, response) ∈ life.replies db schedule ↔
        (i, .ok response) ∈
          ((crowd life.config life.visits.get).deliver schedule (.start w.store)).sent := by
      intro schedule i response
      simp only [replies, hreached]
      exact mem_replies
    have horder : life.order db = (crowd life.config life.visits.get).completing
        (steps life.schedule) (.start w.store) := by
      simp only [order, hrun]
    have hdelivered :=
      delivered (crowd life.config life.visits.get) w.store life.schedule
    refine ⟨?_, ?_, ?_, ?_⟩
    · rw [horder]
      exact (completing_spec _ _).1
    · simp only [replies, hreached]
      exact (replies_sublist _).nodup hdelivered.once
    · intro i response hsent
      rw [hreplies] at hsent
      refine ⟨horder ▸ mem_completing_of_sent hsent, ?_⟩
      simp only [handled, hreached, hdelivered.sent i _ hsent]
      rfl
    · intro before after hschedule i response j hsent hlater hj
      rw [horder, hschedule] at hj ⊢
      exact precedes_of_sent ((hreplies before i response).mp hsent) hlater hj
  · have horder : life.order db = [] := by
      simp only [order, hrun]
    have hreplies : ∀ schedule, life.replies db schedule = [] := by
      intro schedule
      simp only [replies, reached, hrun]
    refine ⟨?_, ?_, ?_, ?_⟩
    · simp [horder]
    · simp [hreplies]
    · simp [hreplies]
    · simp [horder]

/-- A life is the run of its start and of the requests that were handled. -/
theorem sequential (life : Life) (db : Db) (up : Option AuthConfig) :
    (server.run ⟨db, up⟩ (life.moments db)).db = life.dbAfter db ∧
      server.transcript ⟨db, up⟩ (life.moments db) = life.transcript db := by
  have hmoments : life.moments db =
      life.startMoment :: (life.order db).map fun i => (life.visits.get i).moment := by
    simp [moments, transcript]
  have hstart : server.answer ⟨db, up⟩ life.startMoment = none := rfl
  rw [hmoments, Machine.run_cons, Machine.transcript, transcript, hstart]
  simp only [order, handled, dbAfter, reached]
  rcases hrun : Authenticator.construct life.config (World.idle db life.faults) with
    ⟨u, w⟩ | ⟨e, w⟩
  · have hnext : server.next ⟨db, up⟩ life.startMoment = ⟨w.store, some life.config⟩ := by
      show next life.libraries ⟨db, up⟩ (.start life.config life.faults) = _
      simp [next, hrun]
    obtain ⟨hnodup, hstore, -, hprogress⟩ :=
      (crowd_serial life.config life.visits.get).linearizes w.store (steps life.schedule)
    obtain ⟨hserial, htranscript⟩ :=
      run_inTurn life.config life.visits.get hnodup (.start w.store)
    have hsnapshot : (Snapshot.start w.store : Snapshot (Fin life.visits.length) Db Seen Answer).store =
        w.store := rfl
    rw [hsnapshot] at hserial htranscript
    simp only [hnext, (delivered _ w.store life.schedule).now]
    rw [hserial, htranscript]
    refine ⟨hstore.symm, ?_⟩
    congr 1
    apply List.map_congr_left
    intro i hi
    rw [hprogress i hi]
  · have hnext : server.next ⟨db, up⟩ life.startMoment = ⟨w.store, none⟩ := by
      show next life.libraries ⟨db, up⟩ (.start life.config life.faults) = _
      simp [next, hrun]
    simp only [hnext]
    exact ⟨rfl, rfl⟩

end Life

def dbAfterAll (db : Db) (lives : List Life) : Db :=
  lives.foldl (fun db life => life.dbAfter db) db

def transcriptOfAll : Db → List Life → List (Moment × Option HttpResponse)
  | _, [] => []
  | db, life :: lives => life.transcript db ++ transcriptOfAll (life.dbAfter db) lives

theorem sequential_all (lives : List Life) (db : Db) (up : Option AuthConfig) :
    let transcript := transcriptOfAll db lives
    (server.run ⟨db, up⟩ (transcript.map Prod.fst)).db = dbAfterAll db lives ∧
      server.transcript ⟨db, up⟩ (transcript.map Prod.fst) = transcript := by
  induction lives generalizing db up with
  | nil => exact ⟨rfl, rfl⟩
  | cons life lives ih =>
      obtain ⟨hdb, htranscript⟩ := life.sequential db up
      have hmoments : (transcriptOfAll db (life :: lives)).map Prod.fst =
          life.moments db ++ (transcriptOfAll (life.dbAfter db) lives).map Prod.fst :=
        List.map_append
      obtain ⟨hrest, hrest'⟩ :=
        ih (life.dbAfter db) (server.run ⟨db, up⟩ (life.moments db)).server
      simp only [hmoments, Machine.run_append, Machine.transcript_append, htranscript]
      rcases hend : server.run ⟨db, up⟩ (life.moments db) with ⟨db', up'⟩
      rw [hend] at hdb hrest hrest'
      obtain rfl : db' = life.dbAfter db := hdb
      exact ⟨hrest, congrArg (life.transcript db ++ ·) hrest'⟩

/-- However often the process is started and killed, and whatever the order in
which the transactions and the replies of its clients come: the database is that
of one run, in which the requests that made their last step, with or without a
reply, are made one after another, and no others are; and the replies are what
this run answers, in an order that no client can tell from the times of its own
requests and replies. -/
theorem lives_are_one_run (lives : List Life) :
    let transcript := transcriptOfAll Db.empty lives
    let moments := transcript.map Prod.fst
    (server.run pristine moments).db = dbAfterAll Db.empty lives ∧
    server.transcript pristine moments = transcript ∧
    ∀ (life : Life) (db : Db), life.Replied db := by
  intro transcript moments
  obtain ⟨hdb, htranscript⟩ := sequential_all lives Db.empty none
  exact ⟨hdb, htranscript, fun life db => life.replied db⟩

end MvcBackend.Lifetimes
