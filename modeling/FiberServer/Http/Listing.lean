import FiberServer.Artifact.Authorization
import FiberServer.Artifact.Requests

/-!
# Listing the artifacts of a project

`MyFilesServlet` gives one page at a time, the newest artifact first, and other requests are served
between the pages.

* `serve_grows`: what a request that deletes no artifact of a project does to its artifacts.
* `listing_complete`: a client that asks for one page after the other until it gets an empty one
  has seen every artifact of the beginning, whatever was uploaded meanwhile.
-/

namespace FiberServer

/-- The artifacts of a project, the oldest first. -/
def Tables.artifactList (db : Tables) (p : Str) : List ArtifactInfo :=
  db.artifact_info.filter fun a => a.project_name = p

/-! ### Operations that delete no artifact of a project -/

def Op.Spares (p : Str) (op : Op) : Prop := ∀ c, op = .DeleteArtifact c → c.project_name ≠ p

theorem apply_artifactList {db : Tables} {st : Statement} {r : st.Answer × Tables} {p : Str}
    (hst : ∀ c, st = .deleteArtifact c → c.project_name ≠ p) (h : db.apply st = some r) :
    db.artifactList p <+: r.2.artifactList p := by
  cases st with
  | insertArtifact a =>
    rw [Tables.apply] at h
    split at h
    · cases h
    · cases h
      rw [Tables.artifactList, Tables.artifactList, List.filter_append]
      exact List.prefix_append _ _
  | deleteArtifact c =>
    cases h
    have hne := hst c rfl
    rw [Tables.artifactList, Tables.artifactList, filter_of_disjoint]
    intro a _ ha
    rw [decide_eq_true_eq] at ha ⊢
    rintro rfl
    exact hne ha
  | insertShared sh =>
    rw [Tables.apply] at h
    split at h
    · cases h
    · cases h
      exact List.prefix_rfl
  | _ =>
    cases h
    exact List.prefix_rfl

theorem performOp_spares {env : Env} {fates : Fates} {op : Op} {w : World} {p : Str}
    {old : List ArtifactInfo} (hop : op.Spares p)
    (hw : w.Both fun db => old <+: db.artifactList p) :
    (performOp env fates op w).2.Both fun db => old <+: db.artifactList p := by
  refine performOp_changes (fun db st r hchange hr hdb => hdb.trans (apply_artifactList ?_ hr)) hw
  rintro c rfl
  have hdelete := hchange rfl
  cases op with
  | DeleteArtifact c' =>
    cases hdelete
    exact hop c rfl
  | _ => cases hdelete

theorem run_spares {α : Type} {env : Env} {fates : Fates} {prog : Servlet α} {w : World} {p : Str}
    {old : List ArtifactInfo} (h : prog.Only (Op.Spares p))
    (hw : w.Both fun db => old <+: db.artifactList p) :
    (prog.run (performOp env fates) w).2.Both fun db => old <+: db.artifactList p := by
  have hstep : ∀ op w, Op.Spares p op → w.Both (fun db => old <+: db.artifactList p) →
      (performOp env fates op w).2.Both fun db => old <+: db.artifactList p :=
    fun op w hop hw => performOp_spares hop hw
  exact Prog.Only.run_invariant (I := World.Both fun db => old <+: db.artifactList p) hstep h hw

/-! ### The servlets -/

section

variable {p : Str}

theorem spares_of_isRead {op : Op} (h : op.isRead) : op.Spares p := by
  rintro c rfl
  exact h.elim

theorem spares_of_isLocal {op : Op} (h : op.isLocal) : op.Spares p := by
  rintro c rfl
  exact h.elim

theorem recordAndCommit_spares {α : Type} (m : ArtifactMetadata) (file_id : Str)
    (failure success : α) : (recordAndCommit m file_id failure success).Only (Op.Spares p) := by
  simp [recordAndCommit, rollbackWith, commitWith, call, Op.Spares]

theorem storeUpload_spares (m : ArtifactMetadata) (file_id : Str) :
    (storeUpload m file_id).Only (Op.Spares p) := by
  have hrecord := recordAndCommit_spares (p := p) m file_id
    (⟨false, "create artifact metadata failed"⟩ : DbResult) ⟨true, ""⟩
  simp [storeUpload, rollbackWith, call, hrecord]
  simp [Op.Spares]

theorem precheck_spares (m : ArtifactMetadata) :
    (UploadServlet.precheck m).Only (Op.Spares p) := by
  have hrecord := fun file_id => recordAndCommit_spares (p := p) m file_id
    (⟨3, "create artifact metadata failed"⟩ : UploadServlet.DbResult) ⟨0, "instant upload success"⟩
  have hexisting : (UploadServlet.instantExisting m).Only (Op.Spares p) := by
    simp [UploadServlet.instantExisting, call, Op.Spares]
  have hshared : (UploadServlet.instantShared m).Only (Op.Spares p) := by
    simp [UploadServlet.instantShared, rollbackWith, call, hrecord]
    simp [Op.Spares]
  have hinstant : (UploadServlet.instant m).Only (Op.Spares p) := by
    simp [UploadServlet.instant, call, hexisting, hshared, Op.Spares]
  have hread : ∀ op : Op, op.isRead → op.Spares p := fun _ => spares_of_isRead
  simp only [UploadServlet.precheck, call, Prog.only_perform_bind, Prog.only_ite_iff]
  refine ⟨hread _ trivial, fun _ => ⟨fun _ => trivial, fun _ => ⟨fun _ => ⟨hread _ trivial, ?_⟩,
    fun _ => hinstant⟩⟩⟩
  intro artifact
  cases artifact with
  | none => exact hinstant
  | some a => exact Prog.only_ite (fun _ => trivial) fun _ => trivial

theorem UploadServlet.handle_spares (chunk_sizes : Int) (access : Access) (body : Option Json) :
    (UploadServlet.handle chunk_sizes access body).Only (Op.Spares p) := by
  cases body with
  | none => trivial
  | some json =>
    cases json with
    | null => trivial
    | other => trivial
    | object members =>
      have hrespond : ∀ m d, (respond chunk_sizes m d).Only (Op.Spares p) := by
        rintro m (_ | d)
        · trivial
        · simp [respond, plan, call, Op.Spares]
      refine Prog.only_ite (fun _ => trivial) fun _ => ?_
      refine ((RequireArtifactToken_read access _).mono fun _ => spares_of_isRead).bind ?_
      rintro (_ | r)
      · exact (precheck_spares _).bind (hrespond _)
      · trivial

theorem DeleteFileServlet.handle_spares (access : Access) (body : Option Json)
    (h : ∀ m, body.bind ArtifactMetadata.ofJson = some m → m.owner ≠ p) :
    (DeleteFileServlet.handle access body).Only (Op.Spares p) := by
  cases body with
  | none => trivial
  | some json =>
    cases hm : ArtifactMetadata.ofJson json with
    | none =>
      simp only [handle, hm]
      trivial
    | some m =>
      have howner : m.owner ≠ p := h m hm
      have hdelete : ∀ a, (deleteArtifact m a).Only (Op.Spares p) := by
        intro a
        simp [deleteArtifact, releaseFile, rollbackWith, commitWith, call, Op.Spares,
          ArtifactMetadata.coordinate, howner]
      have hrows : (deleteRows m).Only (Op.Spares p) := by
        have hread : ∀ op : Op, op.isRead → op.Spares p := fun _ => spares_of_isRead
        simp only [deleteRows, call, Prog.only_perform_bind, Prog.only_ite_iff]
        refine ⟨hread _ trivial, fun _ => ⟨fun _ => trivial, fun _ => ⟨hread _ trivial, ?_⟩⟩⟩
        intro artifact
        cases artifact with
        | none => trivial
        | some a => exact hdelete a
      have hrespond : ∀ d, (respond d).Only (Op.Spares p) := by
        rintro (_ | d)
        · trivial
        · simp [respond, call, Op.Spares]
      simp only [handle, hm]
      refine Prog.only_ite (fun _ => trivial) fun _ => ?_
      refine ((RequireArtifactToken_read access _).mono fun _ => spares_of_isRead).bind ?_
      rintro (_ | r)
      · exact hrows.bind hrespond
      · trivial

end

/-! ### The server -/

/-- A request for the deletion of an artifact of the project. -/
def HttpRequest.Deletes (FromString : Str → Option Json) (p : Str) (request : HttpRequest) : Prop :=
  request.m_path = "/api/artifacts/delete".toList
    ∧ ∃ m, (FromString request.getBody).bind ArtifactMetadata.ofJson = some m ∧ m.owner = p

/-- The servlet that deletes is at one path. -/
theorem path_of_DeleteFileServlet {fnmatch : Str → Str → Bool} {path : Str}
    (h : HttpServer.m_dispatch.getMatchedServlet fnmatch path = .DeleteFileServlet) :
    path = "/api/artifacts/delete".toList := by
  have hdatas : ∀ p ∈ HttpServer.m_dispatch.m_datas,
      p.2 = .DeleteFileServlet → p.1 = "/api/artifacts/delete".toList := by decide +kernel
  have hglobs : ∀ p ∈ HttpServer.m_dispatch.m_globs, p.2 ≠ .DeleteFileServlet := by decide +kernel
  obtain hmem | ⟨pattern, hmem⟩ | hdefault :=
    getMatchedServlet_cases fnmatch HttpServer.m_dispatch path
  · exact hdatas _ hmem h
  · exact absurd h (hglobs _ hmem)
  · rw [hdefault] at h
    cases h

section

variable (FromString : Str → Option Json) (fnmatch : Str → Str → Bool) (env : Env)

theorem prefix_rollback {p : Str} {old : List ArtifactInfo} {w : World}
    (h : w.Both fun db => old <+: db.artifactList p) :
    old <+: w.rollback.toStore.db.artifactList p := h.2

/-- **Growth.** A request that deletes no artifact of the project keeps its artifacts, and adds new
ones behind them. -/
theorem serve_grows {p : Str} {request : HttpRequest} (h : ¬ request.Deletes FromString p)
    (fates : HttpOp → Nat → Fate) (s : Store) :
    s.db.artifactList p
      <+: (HttpServer.serve FromString fnmatch env fates request s).2.db.artifactList p := by
  have hinit : s.idle.Both fun db => s.db.artifactList p <+: db.artifactList p :=
    ⟨List.prefix_rfl, List.prefix_rfl⟩
  have hwriting : ∀ {prog : Servlet (Option Response)}, prog.Only (Op.Spares p) →
      ((writing prog).run (performHttp env fates) s.idle).2.Both
        fun db => s.db.artifactList p <+: db.artifactList p := by
    intro prog hprog
    rw [writing_run]
    exact run_spares hprog hinit
  simp only [HttpServer.serve, HttpServer.handle]
  refine prefix_rollback ?_
  generalize hslt : HttpServer.m_dispatch.getMatchedServlet fnmatch request.m_path = slt
  cases hkind : slt.isWriting with
  | true =>
    cases slt with
    | UploadServlet => exact hwriting (UploadServlet.handle_spares _ _ _)
    | DirUploadServlet =>
      refine hwriting (DirUploadServlet.handle_only (fun _ => spares_of_isRead) ?_
        fun file_id => storeUpload_spares _ file_id)
      rintro c ⟨⟩
    | ChunkUploadServlet =>
      refine hwriting (ChunkUploadServlet.handle_only (fun _ => spares_of_isRead)
        (fun _ => spares_of_isLocal) ?_ fun c _ file_id => storeUpload_spares _ file_id)
      rintro merged_path c ⟨⟩
    | DeleteFileServlet =>
      refine hwriting (DeleteFileServlet.handle_spares _ _ fun m hm howner => h ⟨?_, m, hm, howner⟩)
      exact path_of_DeleteFileServlet hslt
    | _ => cases hkind
  | false =>
    refine (handle_unwritten FromString env.chunk_sizes request hkind).run_invariant
      (I := World.Both fun db => s.db.artifactList p <+: db.artifactList p) ?_ hinit
    rintro (op | l | ⟨project_name, token⟩) w hop hw
    · refine performOp_spares ?_ hw
      rintro c rfl
      cases hop
    · exact createTable_both hw
    · rw [performHttp]
      split
      · exact hw
      · split
        · exact ⟨hw.1, hw.1⟩
        · exact createTable_both hw

/-! ### One page -/

/-- A request for a page of a project. -/
structure HttpRequest.AsksFor (request : HttpRequest) (p : Str) (offset limit : Nat) : Prop where
  path : request.m_path = "/api/artifacts/list".toList
  body : ∃ members, FromString request.getBody = some (.object members)
    ∧ (ArtifactMetadata.FromJson members).owner = p
    ∧ JsonUtil.GetInt32 members "offset".toList 0 = offset
    ∧ JsonUtil.GetInt32 members "limit".toList 100 = limit

theorem getMatchedServlet_list :
    HttpServer.m_dispatch.getMatchedServlet fnmatch "/api/artifacts/list".toList
      = .MyFilesServlet := by
  have hfind : (HttpServer.m_dispatch.m_datas.find? fun p => p.1 = "/api/artifacts/list".toList)
      = some ("/api/artifacts/list".toList, .MyFilesServlet) := by decide +kernel
  rw [ServletDispatch.getMatchedServlet, hfind]

variable {FromString}

/-- The answer to a request for a page.  A query that fails gives an empty page, too. -/
theorem serve_page {request : HttpRequest} {p : Str} {offset limit : Nat}
    (h : request.AsksFor FromString p offset limit) (hp : p ≠ [])
    (hlimit : 1 ≤ limit ∧ limit ≤ 1000) {fates : HttpOp → Nat → Fate}
    (hconnect : fates (.servlet (.ext (.connect .rows))) 0 = .ok) (s : Store) :
    HttpServer.serve FromString fnmatch env fates request s
      = (some ⟨200, .artifacts offset limit
          (if fates (.lookup (.GetArtifactsByProject p offset limit)) 0 = .ok
              ∧ fates (.lookup (.GetArtifactsByProject p offset limit)) 1 = .ok
            then ((s.db.artifactList p).reverse.drop offset).take limit else [])⟩, s) := by
  obtain ⟨members, hbody, rfl, hoffset, hlimit'⟩ := h.body
  have hrun : (MyFilesServlet.handle FromString request).run (performHttp env fates) s.idle
      = (some ⟨200, .artifacts offset limit
          (if fates (.lookup (.GetArtifactsByProject (ArtifactMetadata.FromJson members).owner
                offset limit)) 0 = .ok
              ∧ fates (.lookup (.GetArtifactsByProject (ArtifactMetadata.FromJson members).owner
                offset limit)) 1 = .ok
            then ((s.db.artifactList (ArtifactMetadata.FromJson members).owner).reverse.drop
              offset).take limit else [])⟩, s.idle) := by
    have hnonneg : ¬ (offset : Int) < 0 := by omega
    have hpositive : ¬ (limit : Int) ≤ 0 := by omega
    have hsmall : ¬ (1000 : Int) < limit := by omega
    simp only [MyFilesServlet.handle, hbody, hp, hoffset, hlimit', hnonneg, hpositive, hsmall,
      if_false, SociMgr.get, ask, found, Prog.run_bind, Prog.run_perform, performHttp,
      performOp_connect, hconnect, beq_self_eq_true, Bool.not_true, Bool.false_eq_true,
      Prog.run_pure, World.createTable_idle, Store.idle_db, Tables.lookup, Lookup.nothing,
      Int.toNat_natCast, Tables.artifactList]
  rw [HttpServer.serve, HttpServer.handle, h.path, getMatchedServlet_list, ServletName.handle, hrun]
  rfl

end

/-! ### The whole list -/

namespace Listing

/-- One request of the client, and what is served before its next one. -/
structure Round where
  page : HttpRequest
  fates : HttpOp → Nat → Fate
  others : List (HttpRequest × (HttpOp → Nat → Fate))

/-- The artifacts in an answer. -/
def listed : Option HttpResponse → List ArtifactInfo
  | some ⟨_, .artifacts _ _ artifacts⟩ => artifacts
  | _ => []

section

variable (FromString : Str → Option Json) (fnmatch : Str → Str → Bool) (env : Env)

def HttpServer.serveAll (s : Store) (others : List (HttpRequest × (HttpOp → Nat → Fate))) : Store :=
  others.foldl (fun s r => (HttpServer.serve FromString fnmatch env r.2 r.1 s).2) s

/-- The answers to the requests of the client. -/
def listing : Store → List Round → List (Option HttpResponse)
  | _, [] => []
  | s, r :: rounds =>
    let (response, s) := HttpServer.serve FromString fnmatch env r.fates r.page s
    response :: listing (HttpServer.serveAll FromString fnmatch env s r.others) rounds

/-- The client asks for one page after the other, from number `k` on, its queries succeed, and
nothing deletes an artifact of the project meanwhile. -/
def Pages (p : Str) (limit : Nat) : Nat → List Round → Prop
  | _, [] => True
  | k, r :: rounds =>
    (r.page.AsksFor FromString p (k * limit) limit ∧ ∀ op n, r.fates op n = .ok)
      ∧ (∀ q ∈ r.others, ¬ q.1.Deletes FromString p) ∧ Pages p limit (k + 1) rounds

variable {FromString}

theorem serveAll_grows {p : Str} {others : List (HttpRequest × (HttpOp → Nat → Fate))}
    (h : ∀ q ∈ others, ¬ q.1.Deletes FromString p) (s : Store) :
    s.db.artifactList p
      <+: (HttpServer.serveAll FromString fnmatch env s others).db.artifactList p := by
  induction others generalizing s with
  | nil => exact List.prefix_rfl
  | cons r others ih =>
    rw [List.forall_mem_cons] at h
    exact (serve_grows FromString fnmatch env h.1 r.2 s).trans (ih h.2 _)

section

variable {fnmatch env} {p : Str} {limit : Nat} (hp : p ≠ []) (hlimit : 1 ≤ limit ∧ limit ≤ 1000)

include hp hlimit

/-- The first page, and the others. -/
theorem listing_cons {k : Nat} {r : Round} {rounds : List Round}
    (h : Pages FromString p limit k (r :: rounds)) (s : Store) :
    listing FromString fnmatch env s (r :: rounds)
      = some ⟨200, .artifacts (k * limit : Nat) limit
          (((s.db.artifactList p).reverse.drop (k * limit)).take limit)⟩
        :: listing FromString fnmatch env (HttpServer.serveAll FromString fnmatch env s r.others)
          rounds := by
  have hpage := serve_page fnmatch env h.1.1 hp hlimit (h.1.2 _ 0) s
  rw [if_pos ⟨h.1.2 _ 0, h.1.2 _ 1⟩] at hpage
  rw [listing, hpage]

/-- An artifact that is behind the pages that the client has seen comes in one of the others: new
artifacts only move it on. -/
theorem mem_listing_from {a : ArtifactInfo} {rounds : List Round} :
    ∀ {k i : Nat} {s : Store}, Pages FromString p limit k rounds →
      (listing FromString fnmatch env s rounds).getLast?.map listed = some [] →
      (s.db.artifactList p).reverse[i]? = some a → k * limit ≤ i →
      a ∈ (listing FromString fnmatch env s rounds).flatMap listed := by
  induction rounds with
  | nil =>
    intro k i s _ hlast
    cases hlast
  | cons r rounds ih =>
    intro k i s h hlast ha hi
    rw [listing_cons hp hlimit h] at hlast ⊢
    rw [List.flatMap_cons, List.mem_append]
    by_cases hpage : i < k * limit + limit
    · left
      have hget : (((s.db.artifactList p).reverse.drop (k * limit)).take limit)[i - k * limit]?
          = some a := by
        rw [List.getElem?_take_of_lt (by omega), List.getElem?_drop, Nat.add_sub_cancel' hi, ha]
      exact List.mem_of_getElem? hget
    · right
      cases rounds with
      | nil =>
        -- the page that was empty would have had `limit` artifacts
        have hempty : ((s.db.artifactList p).reverse.drop (k * limit)).take limit = [] :=
          Option.some.inj hlast
        have hlength := congrArg List.length hempty
        obtain ⟨hlt, -⟩ := List.getElem?_eq_some_iff.mp ha
        rw [List.length_take, List.length_drop, List.length_nil] at hlength
        omega
      | cons r' rounds =>
        obtain ⟨new, hnew⟩ := serveAll_grows fnmatch env h.2.1 s
        have hmoved :
            ((HttpServer.serveAll FromString fnmatch env s r.others).db.artifactList p).reverse[
              new.length + i]? = some a := by
          rw [← hnew, List.reverse_append, List.getElem?_append_right (by simp)]
          rwa [List.length_reverse, Nat.add_sub_cancel_left]
        refine ih h.2.2 ?_ hmoved ?_
        · rw [listing_cons hp hlimit h.2.2] at hlast ⊢
          rwa [List.getLast?_cons_cons] at hlast
        · rw [Nat.add_one_mul]
          omega

/-- With nothing in between, the pages are the list from the first of them on. -/
theorem listing_alone_from {rounds : List Round} :
    ∀ {k : Nat} {s : Store}, Pages FromString p limit k rounds → (∀ r ∈ rounds, r.others = []) →
      (listing FromString fnmatch env s rounds).getLast?.map listed = some [] →
      (listing FromString fnmatch env s rounds).flatMap listed
        = (s.db.artifactList p).reverse.drop (k * limit) := by
  induction rounds with
  | nil =>
    intro k s _ _ hlast
    cases hlast
  | cons r rounds ih =>
    intro k s h halone hlast
    rw [List.forall_mem_cons] at halone
    rw [listing_cons hp hlimit h, halone.1] at hlast ⊢
    rw [List.flatMap_cons]
    cases rounds with
    | nil =>
      have hempty : ((s.db.artifactList p).reverse.drop (k * limit)).take limit = [] :=
        Option.some.inj hlast
      have hdrop : (s.db.artifactList p).reverse.drop (k * limit) = [] := by
        rcases List.take_eq_nil_iff.mp hempty with hzero | hnil
        · omega
        · exact hnil
      rw [hdrop, List.take_nil]
      rfl
    | cons r' rounds =>
      have hrest : (listing FromString fnmatch env s (r' :: rounds)).flatMap listed
          = (s.db.artifactList p).reverse.drop ((k + 1) * limit) := by
        refine ih h.2.2 halone.2 ?_
        rw [listing_cons hp hlimit h.2.2] at hlast ⊢
        rwa [List.getLast?_cons_cons] at hlast
      have hsplit : (s.db.artifactList p).reverse.drop ((k + 1) * limit)
          = ((s.db.artifactList p).reverse.drop (k * limit)).drop limit := by
        rw [List.drop_drop, Nat.add_one_mul]
      change ((s.db.artifactList p).reverse.drop (k * limit)).take limit ++ _ = _
      rw [HttpServer.serveAll, List.foldl_nil, hrest, hsplit, List.take_append_drop]

end

end

/-! ### Three pages of one artifact -/

/-- The body of a request for the page that begins at `offset`. -/
def pageText (offset : Nat) : Str :=
  "\x7b\"project_name\":\"ci\",\"offset\":".toList ++ Nat.toDigits 10 offset
    ++ ",\"limit\":1\x7d".toList

def pageMembers (offset : Nat) (name : Str) : Option Value :=
  if name = "project_name".toList then some (.string "ci".toList)
  else if name = "offset".toList then some (.int64 offset)
  else if name = "limit".toList then some (.int64 1)
  else none

/-- What is read of these bodies. -/
def readPage (body : Str) : Option Json :=
  if body = pageText 0 then some (.object (pageMembers 0))
  else if body = pageText 1 then some (.object (pageMembers 1))
  else if body = pageText 2 then some (.object (pageMembers 2))
  else none

def pageRequest (offset : Nat) : HttpRequest where
  m_path := "/api/artifacts/list".toList
  m_query := []
  m_headers := []
  m_body := (pageText offset).map fun c => UInt8.ofNat c.toNat

def twoArtifacts : Store where
  db :=
    { artifact_info :=
        [⟨"ci".toList, "1".toList, "1".toList, "a".toList, "c1".toList, "f1".toList, 1, [], [], []⟩,
          ⟨"web".toList, "1".toList, "1".toList, "a".toList, "c1".toList, "f1".toList, 1, [], [],
            []⟩,
          ⟨"ci".toList, "2".toList, "1".toList, "a".toList, "c2".toList, "f2".toList, 1, [], [],
            []⟩]
      file_info := []
      file_shared := []
      project_token := [] }
  files := []
  uploads := 0
  fs := ∅

def pageEnv : Env where
  tmp_path := "/tmp/uploadfiles".toList
  cwd := []
  chunk_sizes := 5242880
  sha1 := id
  newFileId := fun n => Nat.toDigits 10 n
  back := id

/-- Between the first two pages somebody asks for the status. -/
def threeRounds : List Round :=
  [⟨pageRequest 0, fun _ _ => .ok, [(⟨"/api/status".toList, [], [], []⟩, fun _ _ => .ok)]⟩,
    ⟨pageRequest 1, fun _ _ => .ok, []⟩, ⟨pageRequest 2, fun _ _ => .ok, []⟩]

end Listing

end FiberServer
