import FiberServer.Http.HttpServer
import FiberServer.Artifact.Transactions

/-!
# Who may write

* `TokenFirst p t prog`: whatever its operations answer, the program inserts and
  deletes rows of the project `p` only, and only after `ValidateToken` has accepted
  the token `t` for `p`.
* `write_authorized`: so it is for every request to the server.
-/

namespace FiberServer

/-! ### Rows of a project -/

/-- The project whose rows a statement inserts or deletes. -/
def Statement.writes : Statement → Option Str
  | .insertArtifact a => some a.project_name
  | .deleteArtifact c => some c.project_name
  | .insertFile f => some f.owner
  | .deleteFile owner _ => some owner
  | _ => none

/-- The project whose rows an operation inserts or deletes. -/
def Op.writes : Op → Option Str
  | .CreateArtifact a => some a.project_name
  | .DeleteArtifact c => some c.project_name
  | .CreateFile f => some f.owner
  | .DeleteFileRecordByUserAndFilename user _ => some user
  | _ => none

def HttpOp.writes : HttpOp → Option Str
  | .servlet op => op.writes
  | _ => none

/-- The rows of `artifact_info` and of `file_info` that belong to a project. -/
def Tables.ofProject (db : Tables) (p : Str) : List ArtifactInfo × List FileInfo :=
  (db.artifact_info.filter fun a => a.project_name = p, db.file_info.filter fun f => f.owner = p)

/-- An enabled row of `project_token` has the hash of the token. -/
def Tables.Enabled (db : Tables) (sha1 : Str → Str) (p t : Str) : Prop :=
  ∃ row ∈ db.project_token, row.project_name = p ∧ row.token_hash = sha1 t ∧ row.status = 1

theorem filter_of_disjoint {α : Type*} {p q : α → Bool} {l : List α}
    (h : ∀ x ∈ l, q x = true → p x = true) : (l.filter p).filter q = l.filter q := by
  rw [List.filter_filter]
  refine List.filter_congr fun x hx => ?_
  cases hq : q x with
  | false => rfl
  | true => simp [h x hx hq]

/-- A statement leaves the rows of the other projects. -/
theorem apply_other {db : Tables} {st : Statement} {r : st.Answer × Tables} {q : Str}
    (hq : st.writes ≠ some q) (h : db.apply st = some r) : r.2.ofProject q = db.ofProject q := by
  cases st with
  | insertArtifact a =>
    have hne : a.project_name ≠ q := fun h => hq (congrArg some h)
    rw [Tables.apply] at h
    split at h
    · cases h
    · cases h
      simp [Tables.ofProject, hne]
  | deleteArtifact c =>
    have hne : c.project_name ≠ q := fun h => hq (congrArg some h)
    cases h
    refine Prod.ext (filter_of_disjoint fun a _ ha => ?_) rfl
    have hproject : a.project_name = q := by simpa using ha
    have hcoordinate : a.coordinate ≠ c := fun hc => hne (hproject ▸ hc ▸ rfl)
    simpa using hcoordinate
  | insertFile f =>
    have hne : f.owner ≠ q := fun h => hq (congrArg some h)
    cases h
    simp [Tables.ofProject, hne]
  | deleteFile owner filename =>
    have hne : owner ≠ q := fun h => hq (congrArg some h)
    cases h
    refine Prod.ext rfl (filter_of_disjoint fun f _ hf => ?_)
    have howner : f.owner = q := by simpa using hf
    have hother : f.owner ≠ owner := fun ho => hne (ho.symm.trans howner)
    simp [hother]
  | insertShared s =>
    rw [Tables.apply] at h
    split at h
    · cases h
    · cases h
      rfl
  | _ =>
    cases h
    rfl

/-- No statement of these servlets changes a token. -/
theorem apply_project_token {db : Tables} {st : Statement} {r : st.Answer × Tables}
    (h : db.apply st = some r) : r.2.project_token = db.project_token := by
  cases st with
  | insertArtifact a =>
    rw [Tables.apply] at h
    split at h
    · cases h
    · cases h
      rfl
  | insertShared s =>
    rw [Tables.apply] at h
    split at h
    · cases h
    · cases h
      rfl
  | _ =>
    cases h
    rfl

/-- Of the tables and of those that a rollback goes back to. -/
def World.Both (P : Tables → Prop) (w : World) : Prop := P w.db ∧ P w.committed

theorem execute_both {P : Tables → Prop} {st : Statement} {fate : Fate} {w : World}
    (hP : ∀ db r, P db → db.apply st = some r → P r.2) (hw : w.Both P) :
    (execute st fate w).2.Both P := by
  have happly : ∀ r, w.db.apply st = some r → World.Both P { w with db := r.2 } := by
    intro r hr
    refine ⟨hP _ _ hw.1 hr, ?_⟩
    cases hs : w.saved with
    | none => simpa [World.committed, hs] using hP _ _ hw.1 hr
    | some db => simpa [World.committed, hs] using hw.2
  cases st with
  | begin =>
    rw [execute]
    split
    · exact ⟨hw.1, hw.1⟩
    · exact hw
  | commit =>
    rw [execute]
    split
    · exact ⟨hw.1, hw.1⟩
    · exact hw
  | rollback => exact ⟨hw.2, hw.2⟩
  | createTable =>
    cases fate with
    | lost => exact hw
    | _ => exact ⟨hw.1, hw.1⟩
  | _ =>
    simp only [execute]
    split
    · split
      next r hr => exact happly r hr
      next => exact hw
    · exact hw

/-! ### Operations -/

def Call.writes : Call → Option Str
  | .sql st => st.writes
  | .ext _ => none

/-- The statements that change a table. -/
def Statement.changes : Statement → Bool
  | .insertArtifact _ => true
  | .deleteArtifact _ => true
  | .insertFile _ => true
  | .deleteFile _ _ => true
  | .insertShared _ => true
  | .incrementRef _ => true
  | .decrementRef _ => true
  | .deleteShared _ => true
  | _ => false

/-- The statement of an operation that changes a table. -/
def Op.change : Op → Option Statement
  | .CreateArtifact a => some (.insertArtifact a)
  | .DeleteArtifact c => some (.deleteArtifact c)
  | .CreateFile f => some (.insertFile f)
  | .DeleteFileRecordByUserAndFilename user filename => some (.deleteFile user filename)
  | .CreateShared md5 file_id file_size => some (.insertShared ⟨md5, file_id, file_size, 1⟩)
  | .IncrementRef md5 => some (.incrementRef md5)
  | .DecrementRef md5 => some (.decrementRef md5)
  | .DeleteShared md5 => some (.deleteShared md5)
  | _ => none

/-- A call that changes something is the one of its operation. -/
def Call.ChangesFor (op : Op) : Call → Prop
  | .sql st => st.changes = true → op.change = some st
  | .ext e => op = .ext e

theorem prog_change (sha1 : Str → Str) (op : Op) : (op.prog sha1).Only (Call.ChangesFor op) := by
  cases op with
  | ValidateToken project_name token =>
    simp [Op.prog, project_token.ValidateToken, send, Call.ChangesFor, Statement.changes]
  | GetArtifact c =>
    simp [Op.prog, artifact_info.GetArtifact, artifact_info.EnsureArtifactTable, send,
      Call.ChangesFor, Statement.changes]
  | CreateArtifact a =>
    have hinsert : ∀ existing, (artifact_info.insertUnlessExisting a existing).Only
        (Call.ChangesFor (.CreateArtifact a)) := by
      intro existing
      cases existing <;>
        simp [artifact_info.insertUnlessExisting, send, Call.ChangesFor, Statement.changes,
          Op.change]
    have hread : ∀ st : Statement, st.changes = false →
        Call.ChangesFor (.CreateArtifact a) (.sql st) := by
      intro st hst hchanges
      exact Bool.noConfusion (hst.symm.trans hchanges)
    simp only [Op.prog, artifact_info.CreateArtifact, artifact_info.GetArtifact,
      artifact_info.EnsureArtifactTable, send, Prog.bind_assoc, Prog.only_perform_bind,
      Prog.pure_bind, Prog.ite_bind, Prog.only_ite_iff, Prog.only_pure]
    exact ⟨hread _ rfl, fun _ => ⟨fun _ => ⟨hread _ rfl, fun _ => ⟨fun _ => ⟨hread _ rfl,
      fun _ => hinsert _⟩, fun _ => hinsert none⟩⟩, fun _ => trivial⟩⟩
  | DeleteArtifact c =>
    simp [Op.prog, artifact_info.DeleteArtifact, artifact_info.EnsureArtifactTable, send,
      Call.ChangesFor, Statement.changes, Op.change]
  | ExistsByMd5AndUser md5 user =>
    simp [Op.prog, file_info.ExistsByMd5AndUser, send, Call.ChangesFor, Statement.changes]
  | CreateFile f => simp [Op.prog, file_info.CreateFile, send, Call.ChangesFor, Op.change]
  | DeleteFileRecordByUserAndFilename user filename =>
    simp [Op.prog, file_info.DeleteFileRecordByUserAndFilename, send, Call.ChangesFor, Op.change]
  | ExistsByMd5 md5 =>
    simp [Op.prog, file_shared.ExistsByMd5, send, Call.ChangesFor, Statement.changes]
  | GetFileIdByMd5 md5 =>
    simp [Op.prog, file_shared.GetFileIdByMd5, send, Call.ChangesFor, Statement.changes]
  | CreateShared md5 file_id file_size =>
    simp [Op.prog, file_shared.CreateShared, send, Call.ChangesFor, Op.change]
  | IncrementRef md5 => simp [Op.prog, file_shared.IncrementRef, send, Call.ChangesFor, Op.change]
  | DecrementRef md5 =>
    simp [Op.prog, file_shared.DecrementRef, send, Call.ChangesFor, Statement.changes, Op.change]
  | DeleteShared md5 => simp [Op.prog, file_shared.DeleteShared, send, Call.ChangesFor, Op.change]
  | begin => simp [Op.prog, send, Call.ChangesFor, Statement.changes]
  | commit => simp [Op.prog, send, Call.ChangesFor, Statement.changes]
  | rollback => simp [Op.prog, send, Call.ChangesFor, Statement.changes]
  | ext e => simp [Op.prog, Call.ChangesFor]

/-- An operation writes for the project that its statement writes for. -/
theorem writes_of_change {op : Op} {st : Statement} {q : Str}
    (h : st.changes = true → op.change = some st) (hq : st.writes = some q) :
    op.writes = some q := by
  have hchanges : st.changes = true := by
    cases st <;> first | rfl | exact nomatch hq
  have hchange := h hchanges
  cases op <;> cases hchange <;> exact hq

/-- The statements of an operation write for its project. -/
theorem prog_writes (sha1 : Str → Str) (op : Op) :
    (op.prog sha1).Only fun c => ∀ q, c.writes = some q → op.writes = some q := by
  refine (prog_change sha1 op).mono ?_
  rintro (st | e) hc q hq
  · exact writes_of_change hc hq
  · exact nomatch hq

theorem perform_db (env : Env) (fate : Fate) (w : World) (e : External) :
    (e.perform env fate w).2.db = w.db ∧ (e.perform env fate w).2.saved = w.saved := by
  cases e with
  | uploadSmallFile content =>
    rw [External.perform]
    split <;> exact ⟨rfl, rfl⟩
  | uploadBigFile file_path =>
    rw [External.perform]
    split
    · split <;> exact ⟨rfl, rfl⟩
    · exact ⟨rfl, rfl⟩
  | deleteFile file_id =>
    rw [External.perform]
    split <;> exact ⟨rfl, rfl⟩
  | _ => exact ⟨rfl, rfl⟩

/-- What the statements that an operation may send keep, the operation keeps. -/
theorem performOp_sends {env : Env} {fates : Fates} {op : Op} {w : World} {P : Tables → Prop}
    {C : Call → Prop} (hC : (op.prog env.sha1).Only C)
    (hP : ∀ (db : Tables) (st : Statement) (r : st.Answer × Tables),
      C (.sql st) → db.apply st = some r → P db → P r.2)
    (hw : w.Both P) : (performOp env fates op w).2.Both P := by
  refine hC.run_invariant (I := fun x : Nat × World => x.2.Both P) ?_ hw
  rintro (st | e) x hc hx
  · exact execute_both (fun db r hdb hr => hP db st r hc hr hdb) hx
  · obtain ⟨hdb, hsaved⟩ := perform_db env (fates op x.1) x.2 e
    have hcommitted : (e.perform env (fates op x.1) x.2).2.committed = x.2.committed := by
      rw [World.committed, World.committed, hdb, hsaved]
    exact ⟨hdb.symm ▸ hx.1, hcommitted.symm ▸ hx.2⟩

theorem performOp_both {env : Env} {fates : Fates} {op : Op} {w : World} {P : Tables → Prop}
    (hP : ∀ (db : Tables) (st : Statement) (r : st.Answer × Tables),
      (∀ q, st.writes = some q → op.writes = some q) → db.apply st = some r → P db → P r.2)
    (hw : w.Both P) : (performOp env fates op w).2.Both P :=
  performOp_sends (prog_writes env.sha1 op) hP hw

/-- What the statement of an operation that changes a table keeps. -/
theorem performOp_changes {env : Env} {fates : Fates} {op : Op} {w : World} {P : Tables → Prop}
    (hP : ∀ (db : Tables) (st : Statement) (r : st.Answer × Tables),
      (st.changes = true → op.change = some st) → db.apply st = some r → P db → P r.2)
    (hw : w.Both P) : (performOp env fates op w).2.Both P :=
  performOp_sends (prog_change env.sha1 op) hP hw

/-- The token is enabled at the moment of the check. -/
theorem enabled_of_valid {env : Env} {fates : Fates} {w : World} {p t : Str}
    (h : (performOp env fates (.ValidateToken p t) w).1 = true) : w.db.Enabled env.sha1 p t := by
  rw [performOp, Op.prog, project_token.ValidateToken] at h
  split at h
  · cases h
  rw [Prog.run_bind, run_send] at h
  cases h0 : fates (.ValidateToken p t) 0 with
  | ok =>
    cases h1 : fates (.ValidateToken p t) 1 with
    | ok => simpa [h0, h1, execute, send, performCall, Tables.apply, World.commit, Tables.Enabled] using h
    | _ => simp [h0, h1, execute, send, performCall] at h
  | _ => simp [h0, execute] at h

/-! ### The token comes first -/

/-- `ValidateToken` accepts the token for the project. -/
def Op.accepts (p t : Str) : (op : Op) → op.Answer → Bool
  | .ValidateToken p' t', valid => valid && p' = p && t' = t
  | _, _ => false

def HttpOp.accepts (p t : Str) : (op : HttpOp) → op.Answer → Bool
  | .servlet op, x => op.accepts p t x
  | _, _ => false

/-- Rows of the project `p` are written once the token is `accepted`, others never. -/
def MayWrite (p : Str) (accepted : Bool) (project : Option Str) : Prop :=
  ∀ q, project = some q → q = p ∧ accepted = true

/-- A writing servlet that writes for `p` once the token `t` has been accepted, and
ends with `Q`. -/
def TokenFirstOp {α : Type} (p t : Str) (prog : Servlet α) (Q : Bool → α → Prop)
    (accepted : Bool) : Prop :=
  prog.Safe (fun accepted op => MayWrite p accepted op.writes)
    (fun accepted op x accepted' => accepted' = (accepted || op.accepts p t x)) Q accepted

/-- The program writes for the project `p` only, and only after the token `t` has been
accepted for it, whatever its operations answer. -/
def TokenFirst {α : Type} (p t : Str) (prog : HttpServlet α) : Prop :=
  prog.Safe (fun accepted op => MayWrite p accepted op.writes)
    (fun accepted op x accepted' => accepted' = (accepted || op.accepts p t x))
    (fun _ _ => True) false

section

variable {α β : Type} {p t : Str}

theorem mayWrite_none (accepted : Bool) : MayWrite p accepted none := nofun

theorem TokenFirstOp.bind {prog : Servlet α} {f : α → Servlet β} {Q : Bool → α → Prop}
    {R : Bool → β → Prop} {accepted : Bool} (h : TokenFirstOp p t prog Q accepted)
    (hf : ∀ a accepted', Q accepted' a → TokenFirstOp p t (f a) R accepted') :
    TokenFirstOp p t (prog >>= f) R accepted :=
  Prog.Safe.bind h hf

theorem TokenFirstOp.mono {prog : Servlet α} {Q R : Bool → α → Prop} {accepted : Bool}
    (h : TokenFirstOp p t prog Q accepted) (hQ : ∀ accepted' a, Q accepted' a → R accepted' a) :
    TokenFirstOp p t prog R accepted :=
  Prog.Safe.mono hQ h

/-- An operation that writes for no other project. -/
def WritesFor (p : Str) (op : Op) : Prop := ∀ q, op.writes = some q → q = p

/-- A program that writes for `p` only, after the token has been accepted. -/
theorem tokenFirst_accepted {prog : Servlet α} (h : prog.Only (WritesFor p)) :
    TokenFirstOp p t prog (fun accepted _ => accepted = true) true := by
  refine Prog.Only.safe (J := fun accepted => accepted = true) ?_ ?_ (fun _ _ h => h) h rfl
  · intro accepted op haccepted hop q hq
    exact ⟨hop q hq, haccepted⟩
  · rintro _ op x accepted' rfl rfl
    rfl

/-- A program that does not write. -/
theorem tokenFirst_of_unwritten {prog : Servlet α} {accepted : Bool}
    (h : prog.Only fun op => op.writes = none) :
    TokenFirstOp p t prog (fun _ _ => True) accepted := by
  refine Prog.Only.safe (J := fun _ => True) ?_ (fun _ _ _ _ _ _ => trivial)
    (fun _ _ _ => trivial) h trivial
  intro accepted op _ hop
  exact hop ▸ mayWrite_none accepted

theorem writesFor_of_isRead {op : Op} (h : op.isRead) : WritesFor p op := by
  intro q hq
  cases op <;> first | exact h.elim | exact nomatch hq

theorem writesFor_of_isLocal {op : Op} (h : op.isLocal) : WritesFor p op := by
  intro q hq
  cases op <;> first | exact h.elim | exact nomatch hq

theorem RequireArtifactToken_tokenFirst {access : Access}
    (hpath : IsArtifactWritePath access.path = true) :
    TokenFirstOp p access.token (RequireArtifactToken access p)
      (fun accepted r => r = none → accepted = true) false := by
  simp [TokenFirstOp, RequireArtifactToken, hpath, call, Op.writes, Op.accepts, mayWrite_none]

/-- What follows the check of the token. -/
theorem RequireArtifactToken_then {access : Access} {f : Option Response → Servlet (Option α)}
    (hpath : IsArtifactWritePath access.path = true)
    (hrefused : ∀ r, (f (some r)).Only fun op => op.writes = none)
    (haccepted : (f none).Only (WritesFor p)) :
    TokenFirstOp p access.token (RequireArtifactToken access p >>= f) (fun _ _ => True) false := by
  refine (RequireArtifactToken_tokenFirst hpath).bind fun r accepted hr => ?_
  cases r with
  | some r => exact tokenFirst_of_unwritten (hrefused r)
  | none =>
    obtain rfl := hr rfl
    exact (tokenFirst_accepted haccepted).mono fun _ _ _ => trivial

/-- What follows the check of the token and of the coordinate. -/
theorem admission_then {access : Access} {m : ArtifactMetadata}
    {f : Option Response → Servlet (Option α)} (hpath : IsArtifactWritePath access.path = true)
    (hrefused : ∀ r, (f (some r)).Only fun op => op.writes = none)
    (haccepted : (f none).Only (WritesFor m.owner)) :
    TokenFirstOp m.owner access.token (admission access m >>= f) (fun _ _ => True) false := by
  have hread : ∀ op : Op, op.isRead → WritesFor m.owner op := fun _ => writesFor_of_isRead
  rw [admission, Prog.bind_assoc]
  refine RequireArtifactToken_then hpath hrefused (Prog.Only.bind ?_ ?_)
  · exact Prog.only_ite (fun _ => (coordinateCheck_read m).mono hread) fun _ => trivial
  · rintro (_ | r)
    · exact haccepted
    · exact (hrefused r).mono fun op hop q hq => nomatch hop.symm.trans hq

/-! ### The writing servlets -/

theorem recordAndCommit_writesFor (m : ArtifactMetadata) (file_id : Str) (failure success : α) :
    (recordAndCommit m file_id failure success).Only (WritesFor m.owner) := by
  simp [recordAndCommit, rollbackWith, commitWith, call, WritesFor, Op.writes, BuildArtifactInfo]

theorem storeUpload_writesFor (m : ArtifactMetadata) (file_id : Str) :
    (storeUpload m file_id).Only (WritesFor m.owner) := by
  have hrecord := recordAndCommit_writesFor m file_id
    (⟨false, "create artifact metadata failed"⟩ : DbResult) ⟨true, ""⟩
  simp [storeUpload, rollbackWith, call, hrecord]
  simp [WritesFor, Op.writes, fileRow]

theorem instantExisting_writesFor (m : ArtifactMetadata) :
    (UploadServlet.instantExisting m).Only (WritesFor m.owner) := by
  simp [UploadServlet.instantExisting, call, WritesFor, Op.writes, BuildArtifactInfo]

theorem instantShared_writesFor (m : ArtifactMetadata) :
    (UploadServlet.instantShared m).Only (WritesFor m.owner) := by
  have hrecord := fun file_id => recordAndCommit_writesFor m file_id
    (⟨3, "create artifact metadata failed"⟩ : UploadServlet.DbResult) ⟨0, "instant upload success"⟩
  simp [UploadServlet.instantShared, rollbackWith, call, hrecord]
  simp [WritesFor, Op.writes, fileRow]

theorem precheck_writesFor (m : ArtifactMetadata) :
    (UploadServlet.precheck m).Only (WritesFor m.owner) := by
  have hinstant : (UploadServlet.instant m).Only (WritesFor m.owner) := by
    simp [UploadServlet.instant, call, instantExisting_writesFor, instantShared_writesFor,
      WritesFor, Op.writes]
  have hread : ∀ op : Op, op.isRead → WritesFor m.owner op := fun _ => writesFor_of_isRead
  simp only [UploadServlet.precheck, call, Prog.only_perform_bind, Prog.only_ite_iff]
  refine ⟨hread _ trivial, fun _ => ⟨fun _ => trivial, fun _ => ⟨fun _ => ⟨hread _ trivial, ?_⟩,
    fun _ => hinstant⟩⟩⟩
  intro artifact
  cases artifact with
  | none => exact hinstant
  | some a => exact Prog.only_ite (fun _ => trivial) fun _ => trivial

theorem deleteRows_writesFor (m : ArtifactMetadata) :
    (DeleteFileServlet.deleteRows m).Only (WritesFor m.owner) := by
  have hdelete : ∀ a, (DeleteFileServlet.deleteArtifact m a).Only (WritesFor m.owner) := by
    intro a
    simp [DeleteFileServlet.deleteArtifact, DeleteFileServlet.releaseFile, rollbackWith, commitWith,
      call, WritesFor, Op.writes, ArtifactMetadata.coordinate]
  have hread : ∀ op : Op, op.isRead → WritesFor m.owner op := fun _ => writesFor_of_isRead
  simp only [DeleteFileServlet.deleteRows, call, Prog.only_perform_bind, Prog.only_ite_iff]
  refine ⟨hread _ trivial, fun _ => ⟨fun _ => trivial, fun _ => ⟨hread _ trivial, ?_⟩⟩⟩
  intro artifact
  cases artifact with
  | none => trivial
  | some a => exact hdelete a

section

variable {access : Access} (hpath : IsArtifactWritePath access.path = true)

include hpath

theorem UploadServlet.handle_tokenFirst (chunk_sizes : Int) (body : Option Json) :
    ∃ p, TokenFirstOp p access.token (UploadServlet.handle chunk_sizes access body)
      (fun _ _ => True) false := by
  cases body with
  | none => exact ⟨[], trivial⟩
  | some json =>
    cases json with
    | null => exact ⟨[], trivial⟩
    | other => exact ⟨[], trivial⟩
    | object members =>
      refine ⟨(ArtifactMetadata.FromJson members).owner, ?_⟩
      generalize hm : ArtifactMetadata.FromJson members = m
      have hrespond : ∀ d, (respond chunk_sizes m d).Only (WritesFor m.owner) := by
        rintro (_ | d)
        · trivial
        · simp [respond, plan, call, WritesFor, Op.writes]
      simp only [handle, hm, TokenFirstOp, Prog.safe_ite_iff]
      refine ⟨fun _ => trivial, fun _ => ?_⟩
      exact RequireArtifactToken_then hpath (fun _ => trivial)
        ((precheck_writesFor m).bind hrespond)

theorem DirUploadServlet.handle_tokenFirst (params : Str → Option Str) (body : Bytes) :
    ∃ p, TokenFirstOp p access.token (DirUploadServlet.handle access params body)
      (fun _ _ => True) false := by
  refine ⟨(ArtifactMetadata.FromParams params).owner, ?_⟩
  generalize hm : ArtifactMetadata.FromParams params = m
  have hreceive : (receive body).Only (WritesFor m.owner) := by
    simp only [receive, call, Prog.only_ite_iff, Prog.only_perform_bind]
    refine ⟨fun _ => trivial, fun _ => ⟨nofun, ?_⟩⟩
    rintro (_ | file_id) <;> trivial
  have hstore : ∀ file_id, (store m file_id).Only (WritesFor m.owner) := by
    intro file_id
    refine (storeUpload_writesFor m file_id).bind ?_
    rintro (_ | r)
    · trivial
    · exact Prog.only_ite (fun _ => trivial) fun _ => trivial
  simp only [handle, hm, TokenFirstOp, Prog.safe_ite_iff]
  refine ⟨fun _ => trivial, fun _ => admission_then hpath (fun _ => trivial) ?_⟩
  refine hreceive.bind ?_
  rintro (r | file_id)
  · trivial
  · exact hstore file_id

theorem ChunkUploadServlet.handle_tokenFirst (r : ChunkRequest) :
    ∃ p, TokenFirstOp p access.token (ChunkUploadServlet.handle access r)
      (fun _ _ => True) false := by
  cases hc : chunkMeta r with
  | none =>
    refine ⟨[], ?_⟩
    simp only [handle, hc]
    trivial
  | some c =>
    refine ⟨c.request_meta.owner, ?_⟩
    have hlocal : ∀ op : Op, op.isLocal → WritesFor c.request_meta.owner op :=
      fun _ => writesFor_of_isLocal
    have hreceive : (receive c r.file_path r.body).Only (WritesFor c.request_meta.owner) := by
      refine ((collect_local c r.file_path r.body).mono hlocal).bind ?_
      rintro (_ | merged_path)
      · trivial
      · refine ⟨nofun, ?_⟩
        rintro (_ | file_id) <;> trivial
    have hstore : ∀ file_id,
        (store c.request_meta file_id).Only (WritesFor c.request_meta.owner) := by
      intro file_id
      refine (storeUpload_writesFor c.request_meta file_id).bind ?_
      rintro (_ | d)
      · trivial
      · exact Prog.only_ite (fun _ => ⟨nofun, fun _ => trivial⟩) fun _ => trivial
    simp only [handle, hc, TokenFirstOp, Prog.safe_ite_iff]
    refine ⟨fun _ => trivial, fun _ => admission_then hpath (fun _ => trivial) ?_⟩
    refine hreceive.bind ?_
    rintro (resp | file_id)
    · trivial
    · exact hstore file_id

theorem DeleteFileServlet.handle_tokenFirst (body : Option Json) :
    ∃ p, TokenFirstOp p access.token (DeleteFileServlet.handle access body)
      (fun _ _ => True) false := by
  cases body with
  | none => exact ⟨[], trivial⟩
  | some json =>
    cases hm : ArtifactMetadata.ofJson json with
    | none =>
      refine ⟨[], ?_⟩
      simp only [handle, hm]
      trivial
    | some m =>
      refine ⟨m.owner, ?_⟩
      have hrespond : ∀ d, (respond d).Only (WritesFor m.owner) := by
        rintro (_ | d)
        · trivial
        · simp [respond, call, WritesFor, Op.writes]
      simp only [handle, hm, TokenFirstOp, Prog.safe_ite_iff]
      refine ⟨fun _ => trivial, fun _ => ?_⟩
      exact RequireArtifactToken_then hpath (fun _ => trivial)
        ((deleteRows_writesFor m).bind hrespond)

end

/-! ### The routes -/

def ServletName.isWriting : ServletName → Bool
  | .UploadServlet => true
  | .DirUploadServlet => true
  | .ChunkUploadServlet => true
  | .DeleteFileServlet => true
  | _ => false

/-- What `getMatchedServlet` gives is in a table, or the default. -/
theorem getMatchedServlet_cases (fnmatch : Str → Str → Bool) (d : ServletDispatch α) (uri : Str) :
    (uri, d.getMatchedServlet fnmatch uri) ∈ d.m_datas
      ∨ (∃ pattern, (pattern, d.getMatchedServlet fnmatch uri) ∈ d.m_globs)
      ∨ d.getMatchedServlet fnmatch uri = d.m_default := by
  rw [ServletDispatch.getMatchedServlet]
  split
  next p hp =>
    have huri : p.1 = uri := by simpa using List.find?_some hp
    exact .inl (huri ▸ List.mem_of_find?_eq_some hp)
  next =>
    split
    next p hp => exact .inr (.inl ⟨p.1, List.mem_of_find?_eq_some hp⟩)
    next => exact .inr (.inr rfl)

/-- The writing servlets are at the paths that `RequireArtifactToken` protects. -/
theorem isArtifactWritePath_of_isWriting {fnmatch : Str → Str → Bool} {path : Str}
    (h : (HttpServer.m_dispatch.getMatchedServlet fnmatch path).isWriting = true) :
    IsArtifactWritePath path = true := by
  have hdatas : ∀ p ∈ HttpServer.m_dispatch.m_datas,
      p.2.isWriting = true → IsArtifactWritePath p.1 = true := by decide +kernel
  have hglobs : ∀ p ∈ HttpServer.m_dispatch.m_globs, p.2.isWriting = false := by decide +kernel
  obtain hmem | ⟨pattern, hmem⟩ | hdefault :=
    getMatchedServlet_cases fnmatch HttpServer.m_dispatch path
  · exact hdatas _ hmem h
  · exact nomatch (hglobs _ hmem).symm.trans h
  · rw [hdefault] at h
    exact nomatch h

/-- The other servlets insert and delete no rows. -/
theorem handle_unwritten (FromString : Str → Option Json) (chunk_sizes : Int)
    (request : HttpRequest) {slt : ServletName} (h : slt.isWriting = false) :
    (slt.handle FromString chunk_sizes request).Only fun op => op.writes = none := by
  have hconnect : ∀ {f : Bool → HttpServlet (Option HttpResponse)},
      (∀ x, (f x).Only fun op => op.writes = none) →
        (SociMgr.get >>= f).Only fun op => op.writes = none := fun hf => ⟨rfl, hf⟩
  cases slt with
  | StatusServlet => trivial
  | NotFoundServlet => trivial
  | UploadServlet => exact nomatch h
  | DirUploadServlet => exact nomatch h
  | ChunkUploadServlet => exact nomatch h
  | DeleteFileServlet => exact nomatch h
  | MyFilesServlet =>
    simp only [ServletName.handle, MyFilesServlet.handle]
    split
    · refine Prog.only_ite (fun _ => trivial) fun _ => hconnect fun mysql => ?_
      exact Prog.only_ite (fun _ => trivial) fun _ => ⟨rfl, fun _ => trivial⟩
    · trivial
  | Md5Servlet =>
    simp only [ServletName.handle, Md5Servlet.handle]
    split
    · refine Prog.only_ite (fun _ => trivial) fun _ => hconnect fun mysql => ?_
      refine Prog.only_ite (fun _ => trivial) fun _ => ⟨rfl, fun _ => ?_⟩
      exact Prog.only_ite (fun _ => trivial) fun _ => trivial
    · trivial
  | DownloadServlet =>
    refine hconnect fun mysql => Prog.only_ite (fun _ => trivial) fun _ => ⟨rfl, ?_⟩
    rintro (_ | a)
    · trivial
    · exact Prog.only_ite (fun _ => trivial) fun _ => trivial
  | ArtifactTokenServlet =>
    simp only [ServletName.handle, ArtifactTokenServlet.handle]
    split
    · refine Prog.only_ite (fun _ => trivial) fun _ => hconnect fun mysql => ?_
      refine Prog.only_ite (fun _ => trivial) fun _ => ⟨rfl, fun _ => ?_⟩
      exact Prog.only_ite (fun _ => trivial) fun _ => trivial
    · trivial
  | ArtifactQueryServlet =>
    simp only [ServletName.handle, ArtifactQueryServlet.handle]
    refine Prog.only_ite (fun _ => trivial) fun _ => Prog.only_ite (fun _ => trivial) fun _ => ?_
    refine hconnect fun mysql => Prog.only_ite (fun _ => trivial) fun _ => ?_
    refine Prog.only_ite (fun _ => ⟨rfl, fun _ => trivial⟩) fun _ => ?_
    refine Prog.only_ite (fun _ => ⟨rfl, fun _ => trivial⟩) fun _ => ?_
    exact Prog.only_ite (fun _ => ⟨rfl, fun _ => trivial⟩) fun _ => trivial

/-- A writing servlet at its route. -/
theorem handle_writing (FromString : Str → Option Json) (chunk_sizes : Int) (request : HttpRequest)
    {slt : ServletName} (h : slt.isWriting = true)
    (hpath : IsArtifactWritePath request.m_path = true) :
    ∃ p prog, TokenFirstOp p request.GetArtifactToken prog (fun _ _ => True) false
      ∧ slt.handle FromString chunk_sizes request = writing prog := by
  have haccess : IsArtifactWritePath request.access.path = true := hpath
  cases slt with
  | UploadServlet =>
    obtain ⟨p, hp⟩ := UploadServlet.handle_tokenFirst haccess chunk_sizes
      (FromString request.getBody)
    exact ⟨p, _, hp, rfl⟩
  | DirUploadServlet =>
    obtain ⟨p, hp⟩ := DirUploadServlet.handle_tokenFirst haccess (parseQuery request.m_query)
      request.m_body
    exact ⟨p, _, hp, rfl⟩
  | ChunkUploadServlet =>
    obtain ⟨p, hp⟩ := ChunkUploadServlet.handle_tokenFirst haccess (request.chunk FromString)
    exact ⟨p, _, hp, rfl⟩
  | DeleteFileServlet =>
    obtain ⟨p, hp⟩ := DeleteFileServlet.handle_tokenFirst haccess (FromString request.getBody)
    exact ⟨p, _, hp, rfl⟩
  | _ => exact nomatch h

/-! ### The rows after a request -/

/-- The rows of `q` are those of `s`, also after a rollback. -/
def RowsKept (s : Store) (q : Str) (w : World) : Prop :=
  w.Both fun db => db.ofProject q = s.db.ofProject q

/-- What holds between the operations of a writing servlet. -/
structure Guarded (env : Env) (s : Store) (p t : Str) (accepted : Bool) (w : World) : Prop where
  project_token : w.Both fun db => db.project_token = s.db.project_token
  rows : ∀ q, (accepted = true → q ≠ p) → RowsKept s q w
  enabled : accepted = true → s.db.Enabled env.sha1 p t

theorem Guarded.step {env : Env} {fates : Fates} {s : Store} {accepted : Bool} {w : World} {op : Op}
    (h : Guarded env s p t accepted w) (hop : MayWrite p accepted op.writes) :
    Guarded env s p t (accepted || op.accepts p t (performOp env fates op w).1)
      (performOp env fates op w).2 := by
  refine ⟨?_, fun q hq => ?_, fun haccepted => ?_⟩
  · exact performOp_both (fun db st r _ hr hdb => (apply_project_token hr).trans hdb)
      h.project_token
  · have hkept : RowsKept s q w := h.rows q fun ha => hq (by simp [ha])
    have hother : op.writes ≠ some q := by
      intro hw
      obtain ⟨rfl, ha⟩ := hop q hw
      exact hq (by simp [ha]) rfl
    exact performOp_both (fun db st r hst hr hdb => (apply_other (fun h => hother (hst q h)) hr).trans hdb)
      hkept
  · rw [Bool.or_eq_true] at haccepted
    obtain ha | ha := haccepted
    · exact h.enabled ha
    cases op with
    | ValidateToken p' t' =>
      simp only [Op.accepts, Bool.and_eq_true, decide_eq_true_eq] at ha
      obtain ⟨⟨hvalid, rfl⟩, rfl⟩ := ha
      have henabled := enabled_of_valid hvalid
      rwa [Tables.Enabled, h.project_token.1] at henabled
    | _ => exact nomatch ha

theorem Tables.ofProject_rollback {s : Store} {q : Str} {w : World} (h : RowsKept s q w) :
    w.rollback.toStore.db.ofProject q = s.db.ofProject q := h.2

theorem tokenFirst_run {prog : Servlet α} {Q : Bool → α → Prop} {env : Env} {fates : Fates}
    {s : Store} (h : TokenFirstOp p t prog Q false) {q : Str}
    (hq : (prog.run (performOp env fates) s.idle).2.rollback.toStore.db.ofProject q
      ≠ s.db.ofProject q) : q = p ∧ s.db.Enabled env.sha1 p t := by
  have hinit : Guarded env s p t false s.idle := ⟨⟨rfl, rfl⟩, fun _ _ => ⟨rfl, rfl⟩, nofun⟩
  have hstep : ∀ (accepted : Bool) (w : World) (op : Op), Guarded env s p t accepted w →
      MayWrite p accepted op.writes →
      ∃ accepted', accepted' = (accepted || op.accepts p t (performOp env fates op w).1)
        ∧ Guarded env s p t accepted' (performOp env fates op w).2 :=
    fun accepted w op hw hop => ⟨_, rfl, hw.step hop⟩
  obtain ⟨accepted, hend, -⟩ := Prog.Safe.run hstep h hinit
  have haccepted : accepted = true ∧ q = p := by
    by_contra hn
    exact hq (Tables.ofProject_rollback (hend.rows q fun ha hp => hn ⟨ha, hp⟩))
  exact ⟨haccepted.2, hend.enabled haccepted.1⟩

theorem createTable_both {P : Tables → Prop} {w : World} {fate : Fate} (h : w.Both P) :
    (w.createTable fate).Both P := by
  rw [World.createTable]
  split
  · exact h
  · exact ⟨h.1, h.1⟩

theorem unwritten_run {prog : HttpServlet α} {env : Env} {fates : HttpOp → Nat → Fate} {s : Store}
    (h : prog.Only fun op => op.writes = none) (q : Str) :
    (prog.run (performHttp env fates) s.idle).2.rollback.toStore.db.ofProject q
      = s.db.ofProject q := by
  refine Tables.ofProject_rollback (h.run_invariant ?_ ⟨rfl, rfl⟩)
  rintro (op | l | ⟨project_name, token⟩) w hop hw
  · refine performOp_both (fun db st r hst hr hdb => (apply_other (fun h => ?_) hr).trans hdb) hw
    exact nomatch hop.symm.trans (hst q h)
  · exact createTable_both hw
  · rw [performHttp]
    split
    · exact hw
    · split
      · exact ⟨hw.1, hw.1⟩
      · exact createTable_both hw

theorem writing_run {prog : Servlet (Option Response)} {env : Env}
    {fates : HttpOp → Nat → Fate} {w : World} :
    ((writing prog).run (performHttp env fates) w).2
      = (prog.run (performOp env fun op => fates (.servlet op)) w).2 := by
  rw [writing, Prog.run_bind, Prog.run_map]
  rfl

theorem writing_tokenFirst {prog : Servlet (Option Response)}
    (h : TokenFirstOp p t prog (fun _ _ => True) false) : TokenFirst p t (writing prog) :=
  Prog.Safe.bind (Prog.safe_map h) fun _ _ _ => trivial

/-- **Who may write.** A request writes rows of one project at most, and only after its
token has been accepted for that project; whose rows are others afterwards had the
token enabled. -/
theorem write_authorized (FromString : Str → Option Json) (fnmatch : Str → Str → Bool) (env : Env)
    (request : HttpRequest) :
    ∃ p, TokenFirst p request.GetArtifactToken
        (HttpServer.handle FromString fnmatch env.chunk_sizes request)
      ∧ ∀ (fates : HttpOp → Nat → Fate) (s : Store) (q : Str),
        (HttpServer.serve FromString fnmatch env fates request s).2.db.ofProject q ≠ s.db.ofProject q →
          q = p ∧ s.db.Enabled env.sha1 p request.GetArtifactToken := by
  generalize hslt : HttpServer.m_dispatch.getMatchedServlet fnmatch request.m_path = slt
  have hhandle : HttpServer.handle FromString fnmatch env.chunk_sizes request
      = slt.handle FromString env.chunk_sizes request := by rw [HttpServer.handle, hslt]
  simp only [HttpServer.serve, hhandle]
  cases hwriting : slt.isWriting with
  | true =>
    have hpath := isArtifactWritePath_of_isWriting (hslt ▸ hwriting)
    obtain ⟨p, prog, hprog, hwrites⟩ :=
      handle_writing FromString env.chunk_sizes request hwriting hpath
    rw [hwrites]
    refine ⟨p, writing_tokenFirst hprog, fun fates s q hq => ?_⟩
    rw [writing_run] at hq
    exact tokenFirst_run hprog hq
  | false =>
    have hunwritten := handle_unwritten FromString env.chunk_sizes request hwriting
    refine ⟨[], ?_, fun fates s q hq => absurd (unwritten_run hunwritten q) hq⟩
    exact Prog.Only.safe (J := fun _ => True) (fun accepted op _ hop => hop ▸ mayWrite_none accepted)
      (fun _ _ _ _ _ _ => trivial) (fun _ _ _ => trivial) hunwritten trivial

end

end FiberServer
