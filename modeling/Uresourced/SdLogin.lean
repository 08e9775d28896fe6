import Uresourced.Utils

/-!
`r-sd-login.c`: the daemon's view of who is logged in.

`logind_quiet` asks logind for the seats, the sessions of every seat and the
list of users, one query after the other. `LogindAnswers` holds what these
queries return; `none` stands for a negative return value. The view consists of
two sorted arrays, and it is stale from the moment logind changes until the
timer that `logind_changed` arms has fired.
-/

namespace Uresourced

structure Session where
  uid : Option Uid
  isActive : Option Bool
  deriving DecidableEq, Repr

structure Seat where
  canGraphical : Option Bool
  sessions : Option (List Session)
  deriving DecidableEq, Repr

structure LogindAnswers where
  seats : Option (List Seat)
  uids : Option (List Uid)
  deriving DecidableEq, Repr

def ActiveOnGraphicalSeat (seats : List Seat) (uid : Uid) : Prop :=
  ∃ seat ∈ seats, seat.canGraphical = some true ∧ ∃ sessions, seat.sessions = some sessions ∧
    ∃ session ∈ sessions, session.uid = some uid ∧ session.isActive = some true

/-- `struct _RSdLogin`; `monDelay` says whether the quiet timer is armed. -/
structure RSdLogin where
  monDelay : Bool
  graphicalUsers : List Uid
  allUsers : List Uid
  deriving DecidableEq, Repr

namespace RSdLogin

/-- The body of the loop over the sessions of a seat: the user of an active
session is entered once. -/
def addSession (graphicalUsers : List Uid) (session : Session) : List Uid :=
  match session.uid with
  | none => graphicalUsers
  | some uid =>
      match session.isActive with
      | none => graphicalUsers
      | some false => graphicalUsers
      | some true =>
          if GArray.binarySearch uidCmp graphicalUsers uid then graphicalUsers
          else GArray.sort uidCmp (graphicalUsers ++ [uid])

/-- The body of the loop over the seats: seats that are not graphical, or whose
queries fail, are skipped. -/
def addSeat (graphicalUsers : List Uid) (seat : Seat) : List Uid :=
  match seat.canGraphical with
  | none => graphicalUsers
  | some false => graphicalUsers
  | some true =>
      match seat.sessions with
      | none => graphicalUsers
      | some sessions => sessions.foldl addSession graphicalUsers

/-- `logind_quiet`. Whatever the answers are, the signal `changed` is emitted
once after it. -/
def logindQuiet (answers : LogindAnswers) : RSdLogin :=
  match answers.seats with
  -- the arrays were emptied before logind was asked
  | none => ⟨false, [], []⟩
  | some seats =>
      match answers.uids with
      | none => ⟨false, [], []⟩
      | some uids =>
          ⟨false, GArray.sort uidCmp (seats.foldl addSeat []), GArray.sort uidCmp uids⟩

/-- `logind_changed`: the queued notifications are flushed and the quiet timer
is armed anew. -/
def logindChanged (self : RSdLogin) : RSdLogin := { self with monDelay := true }

def init (answers : LogindAnswers) : RSdLogin := logindQuiet answers

/-! ### The snapshot is sorted and complete -/

/-- An array of ids with the property `P`, in the strict order of their keys. -/
structure SearchableBy {β : Type*} [LinearOrder β] (key : Uid → β) (P : Uid → Prop)
    (uids : List Uid) : Prop where
  sorted : uids.Pairwise fun a b => key a < key b
  mem : ∀ uid ∈ uids, P uid

section Searchable

-- `uid_cmp` is an order on the ids with the property
variable {β : Type*} [LinearOrder β] {key : Uid → β} {P : Uid → Prop}
  (horders : ∀ a b, P a → P b → GArray.Orders uidCmp key a b)

include horders

theorem binarySearch_sort_iff {uids : List Uid} (hmem : ∀ uid ∈ uids, P uid) (uid : Uid) :
    GArray.binarySearch uidCmp (GArray.sort uidCmp uids) uid = true ↔
      uid ∈ GArray.sort uidCmp uids := by
  have hsorted : (GArray.sort uidCmp uids).Pairwise fun a b => key a ≤ key b :=
    GArray.sort_pairwise fun a ha b hb => horders a b (hmem a ha) (hmem b hb)
  refine ⟨mem_of_binarySearch_uidCmp, fun huid => ?_⟩
  have hP (a : Uid) (ha : a ∈ GArray.sort uidCmp uids) : P a :=
    hmem a ((GArray.mem_sort uidCmp).mp ha)
  exact (GArray.binarySearch_iff hsorted fun a ha => horders a uid (hP a ha) (hP uid huid)).mpr
    ⟨uid, huid, rfl⟩

theorem searchableBy_sort {uids : List Uid} (hmem : ∀ uid ∈ uids, P uid) (hnodup : uids.Nodup) :
    SearchableBy key P (GArray.sort uidCmp uids) := by
  have hperm := GArray.sort_perm uidCmp uids
  have hP (a : Uid) (ha : a ∈ GArray.sort uidCmp uids) : P a := hmem a (hperm.mem_iff.mp ha)
  refine ⟨?_, hP⟩
  have hle : (GArray.sort uidCmp uids).Pairwise fun a b => key a ≤ key b :=
    GArray.sort_pairwise fun a ha b hb => horders a b (hmem a ha) (hmem b hb)
  have hne : (GArray.sort uidCmp uids).Pairwise (· ≠ ·) := hperm.nodup_iff.mpr hnodup
  refine List.Pairwise.imp_of_mem (fun {a b} ha hb hab => ?_) (hle.and hne)
  refine lt_of_le_of_ne hab.1 fun hkey => hab.2 ?_
  exact uidCmp_eq_zero_iff.mp ((horders a b (hP a ha) (hP b hb)).2.mpr hkey)

omit horders in
theorem SearchableBy.nodup {uids : List Uid} (h : SearchableBy key P uids) : uids.Nodup :=
  h.sorted.imp fun hlt heq => hlt.ne (congrArg key heq)

theorem SearchableBy.binarySearch_iff {uids : List Uid} (h : SearchableBy key P uids) {uid : Uid}
    (huid : P uid) : GArray.binarySearch uidCmp uids uid = true ↔ uid ∈ uids := by
  refine ⟨mem_of_binarySearch_uidCmp, fun hmem => ?_⟩
  exact (GArray.binarySearch_iff (h.sorted.imp le_of_lt) fun a ha =>
    horders a uid (h.mem a ha) huid).mpr ⟨uid, hmem, rfl⟩

theorem searchableBy_addSession {users : List Uid} {session : Session}
    (h : SearchableBy key P users)
    (hP : ∀ uid, session.uid = some uid → session.isActive = some true → P uid) :
    SearchableBy key P (addSession users session) := by
  unfold addSession
  split
  · exact h
  · next uid huid =>
    split
    · exact h
    · exact h
    · next hactive =>
      have hmem := hP uid huid hactive
      split
      · exact h
      · next hsearch =>
        have hnot : uid ∉ users := fun hin => hsearch ((h.binarySearch_iff horders hmem).mpr hin)
        apply searchableBy_sort horders
        · intro a ha
          rcases List.mem_append.mp ha with ha | ha
          · exact h.mem a ha
          · exact List.mem_singleton.mp ha ▸ hmem
        · rw [List.nodup_append]
          refine ⟨h.nodup, List.nodup_singleton uid, fun a ha b hb => ?_⟩
          rw [List.mem_singleton.mp hb]
          exact fun heq => hnot (heq ▸ ha)

theorem searchableBy_sessions {users : List Uid} {sessions : List Session}
    (h : SearchableBy key P users)
    (hP : ∀ session ∈ sessions, ∀ uid, session.uid = some uid → session.isActive = some true →
      P uid) :
    SearchableBy key P (sessions.foldl addSession users) := by
  induction sessions generalizing users with
  | nil => exact h
  | cons session sessions ih =>
      exact ih (searchableBy_addSession horders h (hP session (by simp)))
        fun s hs => hP s (by simp [hs])

end Searchable

theorem mem_addSession {users : List Uid} {session : Session} {uid : Uid} :
    uid ∈ addSession users session ↔
      uid ∈ users ∨ (session.uid = some uid ∧ session.isActive = some true) := by
  unfold addSession
  split
  · next h => simp [h]
  · next u h =>
    split
    · next h' => simp [h']
    · next h' => simp [h']
    · next h' =>
      split
      · next hsearch =>
        have hmem := mem_of_binarySearch_uidCmp hsearch
        simp only [h, h', Option.some.injEq, and_true]
        exact ⟨.inl, fun hor => hor.elim id fun heq => heq ▸ hmem⟩
      · simp [h, h', eq_comm]

def Counted (seat : Seat) (sessions : List Session) : Prop :=
  seat.canGraphical = some true ∧ seat.sessions = some sessions

theorem addSeat_of_counted {users : List Uid} {seat : Seat} {sessions : List Session}
    (h : Counted seat sessions) : addSeat users seat = sessions.foldl addSession users := by
  simp [addSeat, h.1, h.2]

theorem addSeat_of_not_counted {users : List Uid} {seat : Seat}
    (h : ∀ sessions, ¬ Counted seat sessions) : addSeat users seat = users := by
  unfold addSeat
  split
  · rfl
  · rfl
  · next hg =>
    split
    · rfl
    · next sessions hs => exact absurd ⟨hg, hs⟩ (h sessions)

def SmallSeats (seats : List Seat) : Prop :=
  ∀ seat ∈ seats, ∀ sessions ∈ seat.sessions, ∀ session ∈ sessions, ∀ uid ∈ session.uid,
    uid.toNat < 0x80000000

instance (seats : List Seat) : Decidable (SmallSeats seats) :=
  let _ (session : Session) : Decidable (∀ uid ∈ session.uid, uid.toNat < 0x80000000) :=
    Option.decidableForallMem session.uid
  inferInstanceAs (Decidable (∀ seat ∈ seats, ∀ sessions ∈ seat.sessions, ∀ session ∈ sessions,
    ∀ uid ∈ session.uid, uid.toNat < 0x80000000))

theorem mem_sessions {users : List Uid} {sessions : List Session} {uid : Uid} :
    uid ∈ sessions.foldl addSession users ↔
      uid ∈ users ∨
        ∃ session ∈ sessions, session.uid = some uid ∧ session.isActive = some true := by
  induction sessions generalizing users with
  | nil => simp
  | cons session sessions ih => simp [ih, mem_addSession, or_assoc]

/-- The users that are entered are active on a graphical seat. -/
theorem searchableBy_seats {β : Type*} [LinearOrder β] {key : Uid → β} {P : Uid → Prop}
    (horders : ∀ a b, P a → P b → GArray.Orders uidCmp key a b) {users : List Uid}
    {seats : List Seat} (h : SearchableBy key P users)
    (hP : ∀ uid, ActiveOnGraphicalSeat seats uid → P uid) :
    SearchableBy key P (seats.foldl addSeat users) := by
  induction seats generalizing users with
  | nil => exact h
  | cons seat seats ih =>
      refine ih ?_ fun uid ⟨s, hs, hactive⟩ => hP uid ⟨s, by simp [hs], hactive⟩
      by_cases hc : ∃ sessions, Counted seat sessions
      · obtain ⟨sessions, hc⟩ := hc
        rw [addSeat_of_counted hc]
        exact searchableBy_sessions horders h fun session hs uid huid hactive =>
          hP uid ⟨seat, by simp, hc.1, sessions, hc.2, session, hs, huid, hactive⟩
      · rw [addSeat_of_not_counted (not_exists.mp hc)]
        exact h

theorem mem_seats {users : List Uid} {seats : List Seat} {uid : Uid} :
    uid ∈ seats.foldl addSeat users ↔ uid ∈ users ∨ ActiveOnGraphicalSeat seats uid := by
  induction seats generalizing users with
  | nil => simp [ActiveOnGraphicalSeat]
  | cons seat seats ih =>
      have hseat : uid ∈ addSeat users seat ↔ uid ∈ users ∨ ActiveOnGraphicalSeat [seat] uid := by
        by_cases hc : ∃ sessions, Counted seat sessions
        · obtain ⟨sessions, hc⟩ := hc
          simp [addSeat_of_counted hc, mem_sessions, ActiveOnGraphicalSeat, hc.1, hc.2]
        · rw [addSeat_of_not_counted (not_exists.mp hc)]
          refine ⟨.inl, fun hor => hor.elim id ?_⟩
          rintro ⟨s, hs, hg, sessions, hsess, _⟩
          rw [List.mem_singleton.mp hs] at hg hsess
          exact absurd ⟨sessions, hg, hsess⟩ hc
      rw [List.foldl_cons, ih, hseat, or_assoc]
      simp [ActiveOnGraphicalSeat]

/-- The snapshot is searchable: where logind answers and the user ids are small, the
graphical users are the users with an active session on a graphical seat, in a
searchable array. -/
theorem graphicalUsers_logindQuiet {seats : List Seat} {uids : List Uid}
    (hsmall : SmallSeats seats) :
    SortedUids (logindQuiet ⟨some seats, some uids⟩).graphicalUsers ∧
      ∀ uid, uid ∈ (logindQuiet ⟨some seats, some uids⟩).graphicalUsers ↔
        ActiveOnGraphicalSeat seats uid := by
  have horders (a b : Uid) : a.toNat < 0x80000000 → b.toNat < 0x80000000 →
      GArray.Orders uidCmp UInt32.toNat a b := orders_uidCmp
  have hseats : SearchableBy UInt32.toNat (·.toNat < 0x80000000) (seats.foldl addSeat []) := by
    refine searchableBy_seats horders ⟨List.Pairwise.nil, by simp⟩ ?_
    rintro uid ⟨seat, hseat, _, sessions, hsessions, session, hs, huid, _⟩
    exact hsmall seat hseat sessions hsessions session hs uid huid
  have hsorted := searchableBy_sort horders hseats.mem hseats.nodup
  refine ⟨⟨hsorted.sorted, hsorted.mem⟩, fun uid => ?_⟩
  simp [logindQuiet, mem_seats]

/-! ### The snapshot of any user ids -/

structure Emitting where
  login : RSdLogin
  emitted : ℕ
  deriving DecidableEq, Repr

def Emitting.emitChanged (s : Emitting) : Emitting := { s with emitted := s.emitted + 1 }

def Emitting.err (s : Emitting) : Emitting :=
  { s with login := { s.login with graphicalUsers := [], allUsers := [] } }.emitChanged

/-- `logind_quiet`, on the arrays as the last round has left them. -/
def Emitting.logindQuiet (s : Emitting) (answers : LogindAnswers) : Emitting :=
  let s := { s with login := ⟨false, [], []⟩ }
  match answers.seats with
  | none => s.err
  | some seats =>
      let s := { s with
        login := { s.login with graphicalUsers := seats.foldl addSeat s.login.graphicalUsers } }
      match answers.uids with
      | none => s.err
      | some uids =>
          { s with login := { s.login with
              allUsers := GArray.sort uidCmp (s.login.allUsers ++ uids)
              graphicalUsers := GArray.sort uidCmp s.login.graphicalUsers } }.emitChanged

/-- Nothing is left of the last round, and the signal is emitted on every path. -/
theorem emitting_logindQuiet (s : Emitting) (answers : LogindAnswers) :
    s.logindQuiet answers = ⟨RSdLogin.logindQuiet answers, s.emitted + 1⟩ := by
  obtain ⟨seats, uids⟩ := answers
  cases seats with
  | none => rfl
  | some seats =>
      cases uids with
      | none => rfl
      | some uids => rfl

def seatUids (seat : Seat) : List Uid :=
  if seat.canGraphical = some true then
    (seat.sessions.getD []).filterMap fun session =>
      if session.isActive = some true then session.uid else none
  else []

def activeUids (seats : List Seat) : List Uid := seats.flatMap seatUids

theorem mem_activeUids {seats : List Seat} {uid : Uid} :
    uid ∈ activeUids seats ↔ ActiveOnGraphicalSeat seats uid := by
  have hseat (seat : Seat) : uid ∈ seatUids seat ↔ seat.canGraphical = some true ∧
      ∃ sessions, seat.sessions = some sessions ∧
        ∃ session ∈ sessions, session.uid = some uid ∧ session.isActive = some true := by
    unfold seatUids
    by_cases hgraphical : seat.canGraphical = some true
    · cases hsessions : seat.sessions with
      | none => simp [hgraphical]
      | some sessions =>
          simp only [hgraphical, if_true, Option.getD_some, List.mem_filterMap,
            Option.ite_none_right_eq_some, true_and, Option.some.injEq, exists_eq_left']
          exact exists_congr fun session => and_congr_right fun _ => and_comm
    · simp [hgraphical]
  simp only [activeUids, List.mem_flatMap, hseat, ActiveOnGraphicalSeat]

/-- The view says what logind has answered, and the signal was emitted once. -/
structure Faithful (answers : LogindAnswers) (s t : Emitting) : Prop where
  changed : t.emitted = s.emitted + 1
  failed : answers.seats = none ∨ answers.uids = none →
    t.login.graphicalUsers = [] ∧ t.login.allUsers = []
  graphicalUsers : ∀ seats uids, answers = ⟨some seats, some uids⟩ →
    t.login.graphicalUsers.Nodup ∧
      ∀ uid, uid ∈ t.login.graphicalUsers ↔ ActiveOnGraphicalSeat seats uid
  allUsers : ∀ seats uids, answers = ⟨some seats, some uids⟩ → t.login.allUsers.Perm uids
  searched : ∀ uid,
    (GArray.binarySearch uidCmp t.login.graphicalUsers uid = true ↔
      uid ∈ t.login.graphicalUsers) ∧
    (GArray.binarySearch uidCmp t.login.allUsers uid = true ↔ uid ∈ t.login.allUsers)

/-- The ids that `uid_cmp` has to put in order, array by array. -/
def Orderly (answers : LogindAnswers) : Prop :=
  ∀ seats uids, answers = ⟨some seats, some uids⟩ →
    OrderedUids (activeUids seats) ∧ OrderedUids uids

def highUids : LogindAnswers where
  seats := some [⟨some true,
    some [⟨some 3000001000, some true⟩, ⟨some 3000000000, some true⟩]⟩]
  uids := some [3000001000, 3000000000]

def farUids : LogindAnswers where
  seats := some [⟨some true, some [⟨some 1000, some true⟩, ⟨some 2147484648, some true⟩,
    ⟨some 2147484649, some true⟩]⟩]
  uids := some [1000, 2147484648, 2147484649]

end RSdLogin

end Uresourced
