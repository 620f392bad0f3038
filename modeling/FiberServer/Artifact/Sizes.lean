import FiberServer.Artifact.Dangling

/-!
# The recorded sizes

No route compares the size that a request declares with the file: a direct upload takes it from the
query, a chunk upload from the query or a header, a precheck from its body, and the rows get it as
it is.

* `Registers`: every size that a request adds to the tables is the one that it declares.
* `sizes_iff`: the rows of a file have its number of bytes throughout a run if and only if the
  requests that record a size for it declare that number.
* `declared_unchecked`: an upload of three bytes that declares five.
-/

namespace FiberServer

open Transition (Along Throughout exec throughout_iff_along)

variable {env : Env} {fates : Fates} {s t : Store} {id : Str}

/-- The file and the size of every row. -/
def Tables.sizes (db : Tables) : List (Str × Int) :=
  db.file_shared.map (fun sh => (sh.file_id, sh.file_size))
    ++ db.file_info.map (fun f => (f.file_id, f.size))
    ++ db.artifact_info.map fun a => (a.file_id, a.size)

/-- The rows of the file `id` have its number of bytes, if it is in FastDFS. -/
def Sized (id : Str) (s : Store) : Prop :=
  ∀ size, (id, size) ∈ s.db.sizes → ∀ content, (id, content) ∈ s.files → size = content.length

/-- The metadata of a request that can add rows. -/
def Request.metadata : Request → Option ArtifactMetadata
  | .precheck _ (some (.object members)) => some (.FromJson members)
  | .precheck _ _ => none
  | .direct _ params _ => some (.FromParams params)
  | .chunk _ r => (ChunkUploadServlet.chunkMeta r).map ChunkUploadServlet.Chunk.request_meta
  | .delete _ _ => none

/-- If the request records a size for the file `id` that it did not have, it declares the number of
bytes of the file. -/
def Declares (env : Env) (id : Str) (s : Store) (x : Fates × Request) : Prop :=
  let t := (serve env x.1 x.2 s).2
  (∃ size, (id, size) ∈ t.db.sizes ∧ (id, size) ∉ s.db.sizes) →
    ∀ m, x.2.metadata = some m → ∀ content, (id, content) ∈ t.files → m.size = content.length

/-- What a request does to the sizes and to the files.  A row that it adds has the size that it
declares, and names the file that it stores or one that a row names. -/
structure Registers (env : Env) (s : Store) (req : Request) (t : Store) : Prop where
  sizes : ∀ r ∈ t.db.sizes, r ∈ s.db.sizes ∨ (∃ m, req.metadata = some m ∧ r.2 = m.size)
    ∧ (r.1 = [] ∨ (∃ size, (r.1, size) ∈ s.db.sizes)
      ∨ r.1 = env.newFileId s.uploads ∧ t.uploads = s.uploads + 1)
  files : ∀ f ∈ t.files, f ∈ s.files ∨ f.1 = env.newFileId s.uploads ∧ t.uploads = s.uploads + 1
  uploads : s.uploads ≤ t.uploads

/-! ### Rows -/

section

variable {db : Tables} {r : Str × Int}

theorem mem_sizes_addShared {sh : FileShared} :
    r ∈ (db.addShared sh).sizes ↔ r ∈ db.sizes ∨ r = (sh.file_id, sh.file_size) := by
  simp only [Tables.sizes, Tables.addShared, List.map_append, List.mem_append, List.map_cons,
    List.map_nil, List.mem_singleton]
  tauto

theorem mem_sizes_addFile {f : FileInfo} :
    r ∈ (db.addFile f).sizes ↔ r ∈ db.sizes ∨ r = (f.file_id, f.size) := by
  simp only [Tables.sizes, Tables.addFile, List.map_append, List.mem_append, List.map_cons,
    List.map_nil, List.mem_singleton]
  tauto

theorem mem_sizes_addArtifact {a : ArtifactInfo} :
    r ∈ (db.addArtifact a).sizes ↔ r ∈ db.sizes ∨ r = (a.file_id, a.size) := by
  simp only [Tables.sizes, Tables.addArtifact, List.map_append, List.mem_append, List.map_cons,
    List.map_nil, List.mem_singleton]
  tauto

/-- Rows are taken out. -/
theorem mem_sizes_of_sublist {db' : Tables} (hr : r ∈ db'.sizes)
    (hshared : db'.file_shared.Sublist db.file_shared)
    (hfile : db'.file_info.Sublist db.file_info)
    (hartifact : db'.artifact_info.Sublist db.artifact_info) : r ∈ db.sizes :=
  (((hshared.map _).append (hfile.map _)).append (hartifact.map _)).subset hr

theorem sizes_updateRef (db : Tables) (md5 : Str) (f : Int → Int) :
    (db.updateRef md5 f).sizes = db.sizes := by
  have hshared : (db.updateRef md5 f).file_shared.map (fun sh => (sh.file_id, sh.file_size))
      = db.file_shared.map fun sh => (sh.file_id, sh.file_size) := by
    rw [Tables.updateRef, List.map_map]
    refine List.map_congr_left fun sh _ => ?_
    by_cases hmd5 : sh.file_md5 = md5 <;> simp [hmd5]
  rw [Tables.sizes, hshared]
  rfl

/-- The file and the size that a statement records. -/
def Statement.size : Statement → Option (Str × Int)
  | .insertArtifact a => some (a.file_id, a.size)
  | .insertFile f => some (f.file_id, f.size)
  | .insertShared sh => some (sh.file_id, sh.file_size)
  | _ => none

/-- A statement adds no other size. -/
theorem apply_sizes {st : Statement} {x : st.Answer × Tables} (h : db.apply st = some x)
    (hr : r ∈ x.2.sizes) : r ∈ db.sizes ∨ st.size = some r := by
  cases st with
  | insertArtifact a =>
    rw [Tables.apply] at h
    split at h
    · cases h
    · cases h
      exact (mem_sizes_addArtifact.mp hr).imp id fun h => congrArg some h.symm
  | insertFile f =>
    cases h
    exact (mem_sizes_addFile.mp hr).imp id fun h => congrArg some h.symm
  | insertShared sh =>
    rw [Tables.apply] at h
    split at h
    · cases h
    · cases h
      exact (mem_sizes_addShared.mp hr).imp id fun h => congrArg some h.symm
  | deleteArtifact c =>
    cases h
    exact .inl (mem_sizes_of_sublist hr (.refl _) (.refl _) List.filter_sublist)
  | deleteFile owner filename =>
    cases h
    exact .inl (mem_sizes_of_sublist hr (.refl _) List.filter_sublist (.refl _))
  | deleteShared md5 =>
    cases h
    exact .inl (mem_sizes_of_sublist hr List.filter_sublist (.refl _) (.refl _))
  | incrementRef md5 =>
    cases h
    exact .inl (sizes_updateRef db md5 _ ▸ hr)
  | decrementRef md5 =>
    cases h
    exact .inl (sizes_updateRef db md5 _ ▸ hr)
  | _ =>
    cases h
    exact .inl hr

/-- An operation that records no size. -/
def Op.Unsized (op : Op) : Prop := ∀ st, op.change = some st → st.size = none

theorem performOp_sizes {op : Op} {w : World} {l : List (Str × Int)} (h : op.Unsized)
    (hw : w.Both fun db => db.sizes ⊆ l) :
    (performOp env fates op w).2.Both fun db => db.sizes ⊆ l := by
  refine performOp_changes (fun db st x hst hx hdb r hr => ?_) hw
  obtain hr | hsize := apply_sizes hx hr
  · exact hdb hr
  · have hchanges : st.changes = true := by
      cases st <;> first | rfl | exact nomatch hsize
    exact nomatch (h st (hst hchanges)).symm.trans hsize

end

/-! ### Prechecks and uploads -/

section

variable {m : ArtifactMetadata} {file_id : Str} {r : Str × Int}

theorem mem_sizes_recordArtifact {db : Tables} {a : ArtifactInfo}
    (h : r ∈ (db.recordArtifact fates a).sizes) : r ∈ db.sizes ∨ r = (a.file_id, a.size) := by
  rw [Tables.recordArtifact] at h
  split_ifs at h
  · exact mem_sizes_addArtifact.mp h
  · exact .inl h

theorem mem_sizes_addUpload {db : Tables} (h : r ∈ (db.addUpload m file_id).sizes) :
    r ∈ db.sizes ∨ r = (file_id, m.size) := by
  obtain h | rfl := mem_sizes_addShared.mp h
  · exact mem_sizes_addFile.mp h
  · exact .inr rfl

theorem mem_sizes_addShare {db : Tables} (h : r ∈ (db.addShare m file_id).sizes) :
    r ∈ db.sizes ∨ r = (file_id, m.size) := by
  obtain h | rfl := mem_sizes_addFile.mp h
  · exact .inl (sizes_updateRef db m.checksum _ ▸ h)
  · exact .inr rfl

/-- The rows of an upload have its size. -/
theorem UploadOutcome.sizes {db db' : Tables} {d : Option DbResult}
    (h : UploadOutcome fates db m file_id d db') (hr : r ∈ db'.sizes) :
    r ∈ db.sizes ∨ r = (file_id, m.size) := by
  have hrecord : r ∈ ((db.addUpload m file_id).recordArtifact fates
      (BuildArtifactInfo m file_id)).sizes → r ∈ db.sizes ∨ r = (file_id, m.size) :=
    fun h => (mem_sizes_recordArtifact h).elim mem_sizes_addUpload .inr
  cases h with
  | kept r hr' h => exact .inl hr
  | stored hw ht =>
    rw [Tables.stored] at hr
    split_ifs at hr
    · exact hrecord hr
    · exact mem_sizes_addUpload hr
  | torn r hr' h hsome => exact hrecord hr

/-- `GetFileIdByMd5` gives the file of a row, or nothing. -/
theorem fileId_of_get {md5 : Str}
    (h : asks env fates s (call (.GetFileIdByMd5 md5)) = file_id) :
    file_id = [] ∨ ∃ size, (file_id, size) ∈ s.db.sizes := by
  rw [asks, call, Prog.run_perform, performOp_GetFileIdByMd5] at h
  split_ifs at h
  · cases hsh : s.db.shared md5 with
    | none =>
      rw [Store.idle_db, hsh] at h
      exact .inl h.symm
    | some sh =>
      rw [Store.idle_db, hsh] at h
      obtain rfl : sh.file_id = file_id := h
      refine .inr ⟨sh.file_size, ?_⟩
      exact List.mem_append_left _ (List.mem_append_left _
        (List.mem_map_of_mem (shared_eq_some hsh).1))
  · exact .inl h.symm

/-- The rows of a precheck have its size, and a file that a row has. -/
theorem UploadServlet.Outcome.sizes {db' : Tables} {d : Option UploadServlet.DbResult}
    (h : UploadServlet.Outcome env fates s m d db') (hr : r ∈ db'.sizes) :
    r ∈ s.db.sizes ∨ r.2 = m.size ∧ (r.1 = [] ∨ ∃ size, (r.1, size) ∈ s.db.sizes) := by
  have hnew : ∀ {file_id}, asks env fates s (call (.GetFileIdByMd5 m.checksum)) = file_id →
      r ∈ s.db.sizes ∨ r = (file_id, m.size) →
      r ∈ s.db.sizes ∨ r.2 = m.size ∧ (r.1 = [] ∨ ∃ size, (r.1, size) ∈ s.db.sizes) := by
    rintro file_id hget (hr | rfl)
    · exact .inl hr
    · exact .inr ⟨rfl, fileId_of_get hget⟩
  have hrecord : ∀ {file_id}, r ∈ ((s.db.addShare m file_id).recordArtifact fates
      (BuildArtifactInfo m file_id)).sizes → r ∈ s.db.sizes ∨ r = (file_id, m.size) :=
    fun h => (mem_sizes_recordArtifact h).elim mem_sizes_addShare .inr
  cases h with
  | kept d hreuse hshare => exact .inl hr
  | reused d file_id h hcode => exact hnew h.file (mem_sizes_recordArtifact hr)
  | shared d file_id h hcode hw ht =>
    rw [Tables.sharing] at hr
    split_ifs at hr
    · exact hnew h.file (hrecord hr)
    · exact hnew h.file (mem_sizes_addShare hr)
  | torn d file_id h hcode hw ht => exact hnew h.file (hrecord hr)

end

/-! ### Deletes -/

theorem unsized_of_isRead {op : Op} (h : op.isRead) : op.Unsized := by
  intro st hst
  cases op <;> first | exact h.elim | exact nomatch hst

theorem deleteRows_unsized (m : ArtifactMetadata) :
    (DeleteFileServlet.deleteRows m).Only Op.Unsized := by
  have hdelete : ∀ a, (DeleteFileServlet.deleteArtifact m a).Only Op.Unsized := by
    intro a
    simp [DeleteFileServlet.deleteArtifact, DeleteFileServlet.releaseFile, rollbackWith, commitWith,
      call, Op.Unsized, Op.change, Statement.size]
  simp only [DeleteFileServlet.deleteRows, call, Prog.only_perform_bind, Prog.only_ite_iff]
  refine ⟨unsized_of_isRead trivial, fun _ =>
    ⟨fun _ => trivial, fun _ => ⟨unsized_of_isRead trivial, ?_⟩⟩⟩
  intro artifact
  cases artifact with
  | none => trivial
  | some a => exact hdelete a

/-- A delete records no size. -/
theorem DeleteFileServlet.handle_unsized (access : Access) (body : Option Json) :
    (DeleteFileServlet.handle access body).Only Op.Unsized := by
  cases body with
  | none => trivial
  | some json =>
    cases hm : ArtifactMetadata.ofJson json with
    | none =>
      simp only [handle, hm]
      trivial
    | some m =>
      have hrespond : ∀ d, (respond d).Only Op.Unsized := by
        rintro (_ | d)
        · trivial
        · simp [respond, call, Op.Unsized, Op.change]
      simp only [handle, hm]
      refine Prog.only_ite (fun _ => trivial) fun _ => ?_
      refine ((RequireArtifactToken_read access m.owner).mono fun _ => unsized_of_isRead).bind ?_
      rintro (_ | r)
      · exact (deleteRows_unsized m).bind hrespond
      · trivial

/-! ### What a request registers -/

namespace Registers

variable {req : Request}

theorem of_quiet (h : Quiet s t) : Registers env s req t where
  sizes := fun _ hr => .inl (h.1 ▸ hr)
  files := fun _ hf => .inl (h.2.1 ▸ hf)
  uploads := Nat.le_of_eq h.2.2.symm

/-- An upload that FastDFS has got. -/
theorem of_took {m : ArtifactMetadata} {file_id : Str} (hm : req.metadata = some m)
    (ht : Took env s (t.setDb s.db) file_id)
    (hsizes : ∀ r ∈ t.db.sizes, r ∈ s.db.sizes ∨ r = (file_id, m.size)) :
    Registers env s req t := by
  obtain ⟨-, hid, huploads, content, hfiles⟩ := ht
  have huploads' : t.uploads = s.uploads + 1 := huploads
  refine ⟨fun r hr => ?_, fun f hf => ?_, by omega⟩
  · obtain hr | rfl := hsizes r hr
    · exact .inl hr
    · exact .inr ⟨⟨m, hm, rfl⟩, .inr (.inr ⟨hid, huploads'⟩)⟩
  · have hf' : f ∈ s.files ++ [(file_id, content)] := hfiles ▸ hf
    obtain hf | hf := List.mem_append.mp hf'
    · exact .inl hf
    · rw [List.mem_singleton.mp hf]
      exact .inr ⟨hid, huploads'⟩

end Registers

/-- **What a request registers**, whatever becomes of its calls. -/
theorem registers (env : Env) (fates : Fates) (s : Store) (req : Request) :
    Registers env s req (serve env fates req s).2 := by
  cases req with
  | precheck token body =>
    obtain ⟨r, t, hrun, hfiles, huploads, hcases⟩ :=
      UploadServlet.handle_cases env fates s ⟨UploadServlet.path, token⟩ body
    rw [serve_eq hrun]
    obtain ⟨hdb, -⟩ | ⟨m, d, hlooks, hout, -⟩ := hcases
    · exact .of_quiet ⟨hdb, hfiles, huploads⟩
    · obtain ⟨members, rfl, rfl⟩ := hlooks.body
      refine ⟨fun r hr => ?_, fun f hf => .inl (hfiles ▸ hf), Nat.le_of_eq huploads.symm⟩
      obtain hr | ⟨hsize, hid⟩ := hout.sizes hr
      · exact .inl hr
      · exact .inr ⟨⟨_, rfl, hsize⟩, hid.imp id .inl⟩
  | direct token params body =>
    obtain ⟨r, t, hrun, hcases⟩ :=
      DirUploadServlet.handle_cases env fates s ⟨DirUploadServlet.path, token⟩ params body
    rw [serve_eq hrun]
    obtain ⟨hquiet, -⟩ | ⟨file_id, d, hreaches, htook, hout, -⟩ := hcases
    · exact .of_quiet hquiet
    · exact .of_took rfl htook fun r hr => hout.sizes hr
  | chunk token r =>
    obtain ⟨resp, t, hrun, hcases⟩ :=
      ChunkUploadServlet.handle_cases env fates s ⟨ChunkUploadServlet.path, token⟩ r
    rw [serve_eq hrun]
    obtain ⟨hquiet, -⟩ | ⟨c, file_id, d, hreaches, htook, hout, -⟩ := hcases
    · exact .of_quiet hquiet
    · refine .of_took (m := c.request_meta) ?_ htook fun r hr => hout.sizes hr
      rw [Request.metadata, hreaches.chunk]
      rfl
  | delete token body =>
    obtain ⟨r, t, hrun, hcases⟩ :=
      DeleteFileServlet.handle_cases env fates s ⟨DeleteFileServlet.path, token⟩ body
    have hboth := (DeleteFileServlet.handle_unsized ⟨DeleteFileServlet.path, token⟩
      body).run_invariant (h := performOp env fates)
      (I := fun w : World => w.Both fun db => db.sizes ⊆ s.db.sizes)
      (fun op w hop hw => performOp_sizes hop hw) (s := s.idle)
      ⟨List.Subset.refl _, List.Subset.refl _⟩
    rw [hrun] at hboth
    rw [serve_eq hrun]
    have hsizes : ∀ r ∈ t.db.sizes, r ∈ s.db.sizes := fun r hr => hboth.1 hr
    obtain ⟨-, rfl, -⟩ | ⟨m, a, d, db, hfinds, hout, hanswers⟩ := hcases
    · exact .of_quiet (Quiet.refl _)
    · refine ⟨fun r hr => .inl (hsizes r hr), fun f hf => .inl ?_,
        Nat.le_of_eq hanswers.uploads.symm⟩
      have hf' : f ∈ s.files.filter _ := hanswers.files ▸ hf
      exact List.mem_of_mem_filter hf'

/-! ### What FastDFS is given -/

theorem execute_files (st : Statement) (fate : Fate) (w : World) :
    (execute st fate w).2.files = w.files ∧ (execute st fate w).2.fs = w.fs := by
  cases st with
  | begin =>
    rw [execute]
    split <;> exact ⟨rfl, rfl⟩
  | commit =>
    rw [execute]
    split <;> exact ⟨rfl, rfl⟩
  | rollback => exact ⟨rfl, rfl⟩
  | createTable => cases fate <;> exact ⟨rfl, rfl⟩
  | _ =>
    simp only [execute]
    split
    · split <;> exact ⟨rfl, rfl⟩
    · exact ⟨rfl, rfl⟩

/-- Only calls that are not SQL change the files. -/
theorem performOp_files {op : Op} (h : ∀ e, op ≠ .ext e) (w : World) :
    (performOp env fates op w).2.files = w.files ∧ (performOp env fates op w).2.fs = w.fs := by
  refine (prog_change env.sha1 op).run_invariant
    (I := fun x : Nat × World => x.2.files = w.files ∧ x.2.fs = w.fs) ?_ ⟨rfl, rfl⟩
  rintro (st | e) x hc hx
  · obtain ⟨hfiles, hfs⟩ := execute_files st (fates op x.1) x.2
    exact ⟨hfiles.trans hx.1, hfs.trans hx.2⟩
  · exact absurd hc (h e)

/-- What a call gives to FastDFS. -/
def External.given (env : Env) (w : World) : External → Option Bytes
  | .uploadSmallFile content => some content
  | .uploadBigFile file_path => ChunkManager.fileContent w.fs env.cwd file_path
  | _ => none

/-- A file is there already, or it is what the call gives. -/
theorem perform_given (fate : Fate) (w : World) (e : External) :
    ∀ f ∈ (e.perform env fate w).2.files, f ∈ w.files ∨ e.given env w = some f.2 := by
  have hupload : ∀ content, ∀ f ∈ (External.upload env content w).2.files,
      f ∈ w.files ∨ some content = some f.2 := by
    intro content f hf
    obtain hf | hf := List.mem_append.mp hf
    · exact .inl hf
    · rw [List.mem_singleton.mp hf]
      exact .inr rfl
  intro f hf
  cases e with
  | uploadSmallFile content =>
    rw [External.perform] at hf
    split_ifs at hf
    · exact hupload content f hf
    · exact .inl hf
  | uploadBigFile file_path =>
    rw [External.perform] at hf
    rw [External.given]
    cases hc : ChunkManager.fileContent w.fs env.cwd file_path with
    | none =>
      rw [hc] at hf
      exact .inl hf
    | some content =>
      rw [hc] at hf
      simp only at hf
      split_ifs at hf
      · exact hupload content f hf
      · exact .inl hf
  | deleteFile file_id =>
    rw [External.perform] at hf
    split_ifs at hf
    · exact .inl (List.mem_of_mem_filter hf)
    · exact .inl hf
  | _ => exact .inl hf

theorem performOp_given (op : Op) (w : World) {f : Str × Bytes}
    (hf : f ∈ (performOp env fates op w).2.files) :
    f ∈ w.files ∨ ∃ e, op = .ext e ∧ e.given env w = some f.2 := by
  by_cases hop : ∃ e, op = .ext e
  · obtain ⟨e, rfl⟩ := hop
    rw [performOp_ext] at hf
    exact (perform_given _ w e f hf).imp id fun h => ⟨e, rfl, h⟩
  · exact .inl ((performOp_files (fun e h => hop ⟨e, h⟩) w).1 ▸ hf)

/-- All that an operation gives to FastDFS is `body`. -/
def Op.GivesOnly (env : Env) (body : Bytes) (op : Op) : Prop :=
  ∀ e, op = .ext e → ∀ w content, External.given env w e = some content → content = body

/-- **A direct upload** stores its body. -/
theorem direct_stores (env : Env) (fates : Fates) (s : Store) (token : Str)
    (params : Str → Option Str) (body : Bytes) :
    ∀ f ∈ (serve env fates (.direct token params body) s).2.files, f ∈ s.files ∨ f.2 = body := by
  have hread : ∀ op : Op, op.isRead → op.GivesOnly env body := by
    rintro op hop e rfl w content hgiven
    cases e <;> first | exact hop.elim | exact nomatch hgiven
  have hgive : (Op.ext (.uploadSmallFile body)).GivesOnly env body := by
    intro e he w content hgiven
    cases he
    exact (Option.some.inj hgiven).symm
  have hstore : ∀ m file_id, (storeUpload m file_id).Only (Op.GivesOnly env body) := by
    intro m file_id
    simp [storeUpload, recordAndCommit, rollbackWith, commitWith, call, Op.GivesOnly,
      External.given]
  have honly : (DirUploadServlet.handle ⟨DirUploadServlet.path, token⟩ params body).Only
      (Op.GivesOnly env body) :=
    DirUploadServlet.handle_only hread hgive (hstore _)
  refine honly.run_invariant (I := fun w : World => ∀ f ∈ w.files, f ∈ s.files ∨ f.2 = body) ?_
    fun f hf => .inl hf
  intro op w hop hw f hf
  obtain hf | ⟨e, rfl, hgiven⟩ := performOp_given op w hf
  · exact hw f hf
  · exact .inr (hop e rfl w f.2 hgiven)

section

variable (c : ChunkUploadServlet.Chunk)

/-- What `mergeChunks` leaves and returns for the upload of a chunk. -/
def ChunkUploadServlet.Chunk.merge (env : Env) (fs : FileSystem.FS Bytes) :
    FileSystem.FS Bytes × Str :=
  ChunkManager.mergeChunks env.tmp_path env.cwd c.request_meta.owner c.request_meta.checksum
    env.back fs c.total_chunks.toNat

/-- The content of a merged file. -/
def ChunkUploadServlet.Chunk.Merged (env : Env) (content : Bytes) : Prop :=
  ∃ fs, ChunkManager.fileContent (c.merge env fs).1 env.cwd (c.merge env fs).2 = some content

/-- The chunks of the upload are merged, and only what was merged in the last step is given to
FastDFS. -/
def MergesFirst (merged_path : Option Str) : Op → Prop
  | .ext (.mergeChunks username md5 total_chunks) =>
    username = c.request_meta.owner ∧ md5 = c.request_meta.checksum ∧ total_chunks = c.total_chunks
  | .ext (.uploadSmallFile _) => False
  | .ext (.uploadBigFile file_path) => merged_path = some file_path
  | _ => True

/-- The path that the last step has merged to. -/
def mergedBy (_ : Option Str) (op : Op) (x : op.Answer) (merged_path : Option Str) : Prop :=
  match op, x with
  | .ext (.mergeChunks _ _ _), x => merged_path = some x
  | _, _ => merged_path = none

variable {c}

/-- What is followed: the files, and the file system after the merge. -/
def FollowsMerge (env : Env) (s : Store) (c : ChunkUploadServlet.Chunk) (merged_path : Option Str)
    (w : World) : Prop :=
  (∀ f ∈ w.files, f ∈ s.files ∨ c.Merged env f.2)
    ∧ ∀ path, merged_path = some path → ∃ fs, c.merge env fs = (w.fs, path)

theorem followsMerge_step {merged_path : Option Str} {w : World} {op : Op}
    (hw : FollowsMerge env s c merged_path w) (hop : MergesFirst c merged_path op) :
    ∃ u, mergedBy merged_path op (performOp env fates op w).1 u
      ∧ FollowsMerge env s c u (performOp env fates op w).2 := by
  have hfiles : ∀ f ∈ (performOp env fates op w).2.files, f ∈ s.files ∨ c.Merged env f.2 := by
    intro f hf
    obtain hf | ⟨e, rfl, hgiven⟩ := performOp_given op w hf
    · exact hw.1 f hf
    · cases e with
      | uploadSmallFile content => exact hop.elim
      | uploadBigFile file_path =>
        obtain ⟨fs, hmerge⟩ := hw.2 file_path hop
        refine .inr ⟨fs, ?_⟩
        rw [hmerge]
        exact hgiven
      | _ => exact nomatch hgiven
  have hnone : ∀ path, (none : Option Str) = some path →
      ∃ fs, c.merge env fs = ((performOp env fates op w).2.fs, path) := nofun
  cases op with
  | ext e =>
    cases e with
    | mergeChunks username md5 total_chunks =>
      obtain ⟨rfl, rfl, rfl⟩ := hop
      refine ⟨some _, rfl, hfiles, fun path hpath => ⟨w.fs, ?_⟩⟩
      obtain rfl := Option.some.inj hpath
      rw [performOp_ext]
      rfl
    | _ => exact ⟨none, rfl, hfiles, hnone⟩
  | _ => exact ⟨none, rfl, hfiles, hnone⟩

/-- An operation that neither merges nor gives anything to FastDFS. -/
def Op.Plain (op : Op) : Prop := ∀ c merged_path, MergesFirst c merged_path op

theorem safe_of_plain {α : Type} {p : Servlet α} (h : p.Only Op.Plain) (merged_path : Option Str) :
    p.Safe (MergesFirst c) mergedBy (fun _ _ => True) merged_path :=
  Prog.Only.safe (J := fun _ => True) (fun merged_path _ _ hop => hop c merged_path)
    (fun _ _ _ _ _ _ => trivial) (fun _ _ _ => trivial) h trivial

theorem plain_of_isRead {op : Op} (h : op.isRead) : op.Plain := by
  intro c merged_path
  cases op with
  | ext e => cases e <;> trivial
  | _ => trivial

theorem collect_safe (file_path : Str) (body : Bytes) (merged_path : Option Str) :
    (ChunkUploadServlet.collect c file_path body).Safe (MergesFirst c) mergedBy
      (fun u x => ∀ path, x = .inr path → u = some path) merged_path := by
  have hsave : (ChunkUploadServlet.saveChunk c file_path body).Only Op.Plain :=
    Prog.only_ite (fun _ => ⟨fun _ _ => trivial, fun _ => trivial⟩)
      fun _ => ⟨fun _ _ => trivial, fun _ => trivial⟩
  refine (safe_of_plain hsave merged_path).bind fun saved u _ => ?_
  refine Prog.safe_ite_iff.mpr ⟨fun _ => nofun, fun _ => ⟨trivial, fun ready v _ => ?_⟩⟩
  refine Prog.safe_ite_iff.mpr ⟨fun _ => nofun, fun _ => ⟨⟨rfl, rfl, rfl⟩, fun path w hw => ?_⟩⟩
  refine Prog.safe_ite_iff.mpr ⟨fun _ => nofun, fun _ path' hpath => ?_⟩
  obtain rfl := Sum.inr.inj hpath
  exact hw

theorem receive_safe (file_path : Str) (body : Bytes) (merged_path : Option Str) :
    (ChunkUploadServlet.receive c file_path body).Safe (MergesFirst c) mergedBy (fun _ _ => True)
      merged_path := by
  refine (collect_safe file_path body merged_path).bind fun x u hu => ?_
  cases x with
  | inl r => trivial
  | inr path =>
    refine ⟨hu path rfl, fun uploaded v _ => ?_⟩
    cases uploaded <;> trivial

theorem store_plain (m : ArtifactMetadata) (file_id : Str) :
    (ChunkUploadServlet.store m file_id).Only Op.Plain := by
  have hrows : (storeUpload m file_id).Only Op.Plain := by
    simp [storeUpload, recordAndCommit, rollbackWith, commitWith, call, Op.Plain, MergesFirst]
  refine hrows.bind ?_
  rintro (_ | d)
  · trivial
  · exact Prog.only_ite (fun _ => ⟨fun _ _ => trivial, fun _ => trivial⟩) fun _ => trivial

theorem handle_safe {access : Access} {r : ChunkRequest}
    (hc : ChunkUploadServlet.chunkMeta r = some c) :
    (ChunkUploadServlet.handle access r).Safe (MergesFirst c) mergedBy (fun _ _ => True) none := by
  simp only [ChunkUploadServlet.handle, hc]
  refine Prog.safe_ite_iff.mpr ⟨fun _ => trivial, fun _ => ?_⟩
  have hadmission := (admission_read access c.request_meta).mono fun _ => plain_of_isRead
  refine (safe_of_plain hadmission none).bind fun refused u _ => ?_
  cases refused with
  | some r => trivial
  | none =>
    refine (receive_safe r.file_path r.body u).bind fun received v _ => ?_
    cases received with
    | inl r => trivial
    | inr file_id => exact safe_of_plain (store_plain c.request_meta file_id) v

/-- **A chunk upload** stores a file that it has merged. -/
theorem chunk_stores (env : Env) (fates : Fates) (s : Store) (token : Str) (r : ChunkRequest) :
    ∀ f ∈ (serve env fates (.chunk token r) s).2.files,
      f ∈ s.files ∨ ∃ c, ChunkUploadServlet.chunkMeta r = some c ∧ c.Merged env f.2 := by
  intro f hf
  cases hc : ChunkUploadServlet.chunkMeta r with
  | none =>
    have hrun : (ChunkUploadServlet.handle ⟨ChunkUploadServlet.path, token⟩ r).run
        (performOp env fates) s.idle = (some (reply (-1) 1 "internal error"), s.idle) := by
      simp only [ChunkUploadServlet.handle, hc]
      rfl
    rw [serve_eq hrun] at hf
    exact .inl hf
  | some c =>
    have hsafe : (ChunkUploadServlet.handle ⟨ChunkUploadServlet.path, token⟩ r).Safe
        (MergesFirst c) mergedBy (fun _ _ => True) none := handle_safe hc
    have hstart : FollowsMerge env s c none s.idle := ⟨fun f hf => .inl hf, fun p h => by cases h⟩
    have hstep : ∀ merged_path w op, FollowsMerge env s c merged_path w →
        MergesFirst c merged_path op → ∃ u, mergedBy merged_path op (performOp env fates op w).1 u
          ∧ FollowsMerge env s c u (performOp env fates op w).2 :=
      fun _ _ _ => followsMerge_step
    obtain ⟨u, hu, -⟩ := hsafe.run hstep hstart
    exact (hu.1 f hf).imp id fun h => ⟨c, rfl, h⟩

end

/-! ### Runs -/

/-- Every file has an id that FastDFS has given, and so has every file that a row names. -/
structure Issued (env : Env) (s : Store) : Prop where
  sizes : ∀ r ∈ s.db.sizes, r.1 = [] ∨ ∃ k < s.uploads, r.1 = env.newFileId k
  files : ∀ f ∈ s.files, ∃ k < s.uploads, f.1 = env.newFileId k

theorem issued_of_empty (h : s.Empty) : Issued env s where
  sizes := by simp [Tables.sizes, h.artifact_info, h.file_info, h.file_shared]
  files := by simp [h.files]

theorem Issued.registers {req : Request} (h : Issued env s) (hr : Registers env s req t) :
    Issued env t := by
  have hlater : ∀ {id}, (∃ k < s.uploads, id = env.newFileId k) →
      ∃ k < t.uploads, id = env.newFileId k :=
    fun ⟨k, hk, hid⟩ => ⟨k, Nat.lt_of_lt_of_le hk hr.uploads, hid⟩
  have hnow : ∀ {id}, id = env.newFileId s.uploads ∧ t.uploads = s.uploads + 1 →
      ∃ k < t.uploads, id = env.newFileId k :=
    fun ⟨hid, huploads⟩ => ⟨s.uploads, by omega, hid⟩
  refine ⟨fun r hmem => ?_, fun f hmem => ?_⟩
  · obtain hold | ⟨-, hempty | ⟨size, hnamed⟩ | hnew⟩ := hr.sizes r hmem
    · exact (h.sizes r hold).imp id hlater
    · exact .inl hempty
    · exact (h.sizes _ hnamed).imp id hlater
    · exact .inr (hnow hnew)
  · exact (hr.files f hmem).elim (fun hold => hlater (h.files f hold)) hnow

/-- A row that was there does not name a file that is stored now. -/
theorem Issued.old (hnew : Function.Injective env.newFileId) (hid : ∀ k, env.newFileId k ≠ [])
    (h : Issued env s) {req : Request} (hr : Registers env s req t) {size : Int} {content : Bytes}
    (hsize : (id, size) ∈ s.db.sizes) (hfile : (id, content) ∈ t.files) :
    (id, content) ∈ s.files := by
  obtain hold | ⟨hnow, -⟩ := hr.files _ hfile
  · exact hold
  obtain hempty | ⟨k, hk, hk'⟩ := h.sizes _ hsize
  · exact absurd (hnow.symm.trans hempty) (hid _)
  · have hsame := hnew (hnow.symm.trans hk')
    omega

/-- **A request keeps the sizes of a file right** if and only if it declares its size right where
it records one. -/
theorem sized_iff_declares (hnew : Function.Injective env.newFileId)
    (hid : ∀ k, env.newFileId k ≠ []) (h : Issued env s) (hs : Sized id s) (x : Fates × Request) :
    Sized id (serve env x.1 x.2 s).2 ↔ Declares env id s x := by
  have hr := registers env x.1 s x.2
  constructor
  · rintro ht ⟨size, hsize, hunsized⟩ m hm content hfile
    obtain hold | ⟨⟨m', hm', hdeclared⟩, -⟩ := hr.sizes _ hsize
    · exact absurd hold hunsized
    · obtain rfl : m' = m := Option.some.inj (hm'.symm.trans hm)
      exact hdeclared.symm.trans (ht size hsize content hfile)
  · intro hd size hsize content hfile
    by_cases hold : (id, size) ∈ s.db.sizes
    · exact hs size hold content (h.old hnew hid hr hold hfile)
    · obtain hthere | ⟨⟨m, hm, hdeclared⟩, -⟩ := hr.sizes _ hsize
      · exact absurd hthere hold
      · exact hdeclared.trans (hd ⟨size, hsize, hold⟩ m hm content hfile)

/-- Every run of requests goes on to its end. -/
theorem exec_serveStep (env : Env) (s : Store) (xs : List (Fates × Request)) :
    ∃ u, exec (serveStep env) s xs = some u := by
  induction xs generalizing s with
  | nil => exact ⟨s, rfl⟩
  | cons x xs ih => exact ih _

/-- **The sizes of a file** in a run from empty tables, whatever becomes of the calls: its rows have
its number of bytes in every state if and only if every request that records a size for it declares
that number.  The file is the body of a direct upload, or what a chunk upload has merged. -/
theorem sizes_iff (hnew : Function.Injective env.newFileId) (hid : ∀ k, env.newFileId k ≠ [])
    (hempty : s.Empty) (id : Str) (xs : List (Fates × Request)) :
    (Throughout (serveStep env) (Sized id) s xs ↔ Along (serveStep env) (Declares env id) s xs)
      ∧ (∀ fates s token params body,
        ∀ f ∈ (serve env fates (.direct token params body) s).2.files, f ∈ s.files ∨ f.2 = body)
      ∧ ∀ fates s token r, ∀ f ∈ (serve env fates (.chunk token r) s).2.files,
        f ∈ s.files ∨ ∃ c, ChunkUploadServlet.chunkMeta r = some c ∧ c.Merged env f.2 := by
  refine ⟨?_, direct_stores env, chunk_stores env⟩
  obtain ⟨u, hu⟩ := exec_serveStep env s xs
  have hsized : Sized id s := by
    intro size hsize content hfile
    rw [hempty.files] at hfile
    exact absurd hfile List.not_mem_nil
  refine throughout_iff_along (I := Issued env) (A := fun _ _ => True) ?_ ?_
    (issued_of_empty hempty) hsized Transition.along_true hu
  · rintro s x t hs - ht
    obtain rfl := Option.some.inj ht
    exact hs.registers (registers env x.1 s x.2)
  · rintro s x t hs hsized - ht
    obtain rfl := Option.some.inj ht
    exact sized_iff_declares hnew hid hs hsized x

theorem newFileId_ne_nil (k : Nat) : sampleEnv.newFileId k ≠ [] := List.cons_ne_nil _ _

/-- The file of the first upload. -/
def sampleFile : Str := sampleEnv.newFileId 0

/-- Both requests for the file of one byte declare one. -/
theorem sizes_iff_twoProjects :
    Throughout (serveStep sampleEnv) (Sized sampleFile) twoProjects
      [(allOk, sampleUpload), (allOk, samplePrecheck "q" "1")] := by
  refine (sizes_iff newFileId_injective newFileId_ne_nil ⟨rfl, rfl, rfl, rfl⟩ sampleFile _).1.mpr ?_
  have hdeclares : ∀ {x : Fates × Request} {s : Store}, x.2.metadata.map (·.size) = some 1 →
      (serve sampleEnv x.1 x.2 s).2.files = [(sampleFile, [0])] →
      Declares sampleEnv sampleFile s x := by
    intro x s hsize hfiles _ m hm content hcontent
    rw [hfiles, List.mem_singleton] at hcontent
    rw [hm] at hsize
    obtain rfl := (Prod.mk.inj hcontent).2
    exact Option.some.inj hsize
  exact .cons (hdeclares (by decide +kernel) (by decide +kernel)) rfl
    (.cons (hdeclares (by decide +kernel) (by decide +kernel)) rfl .nil)

/-- An upload of three bytes that declares five. -/
def shortUpload : Request :=
  .direct "t".toList (Function.update sampleParams "size".toList (some "5".toList)) [0, 0, 0]

/-- It is answered with a success. -/
theorem declared_unchecked :
    ((serve sampleEnv allOk shortUpload sampleStore).1.map Response.ret = some 0)
      ∧ ¬ Throughout (serveStep sampleEnv) (Sized sampleFile) sampleStore
        [(allOk, shortUpload)] := by
  refine ⟨by decide +kernel, fun h => ?_⟩
  have hlast := h.2 _ rfl
  have hsize := hlast 5 (by decide +kernel) [0, 0, 0] (by decide +kernel)
  exact absurd hsize (by decide)

end FiberServer
