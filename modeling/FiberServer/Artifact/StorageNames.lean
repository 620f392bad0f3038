import FiberServer.Artifact.Clearing
import FiberServer.Artifact.Sizes

/-!
# The storage names

The row of a file in `file_info` is filed under one string that `BuildStorageName` joins from the
name, the version and the build of an artifact.  A delete finds the row by that string.

* `inserted_consistent_iff`: when the rows that a chunk upload inserts agree in that string.  It is
  joined from the query alone or from the header alone, while the fields of the artifact are taken
  one by one.
* `exact_throughout`: in a run of uploads whose names are apart, a delete takes the row that was
  inserted for its coordinate and no other.
* `joined_not_exact`: two coordinates with one name.
-/

namespace FiberServer

open Transition (Along Throughout exec)
open ArtifactMetadata (BuildStorageName)

variable {env : Env} {fates : Fates} {s t : Store}

/-! ### The name of a chunk upload -/

namespace ChunkUploadServlet

/-- The metadata in the query, and what `X-Chunk-Meta` gives. -/
def queryMeta (r : ChunkRequest) : ArtifactMetadata :=
  ArtifactMetadata.FromParams (queryParams r.param)

def headerMeta (r : ChunkRequest) : Option ArtifactMetadata :=
  r.meta_header.bind ArtifactMetadata.ofJson

/-- The name that was joined from one side is that of the fields from both. -/
structure SplitsWell (q h : ArtifactMetadata) : Prop where
  /-- the name is that of the header -/
  header : q.artifact_name = [] → q.version = [] →
    h.version = [] ∨ q.build_no = [] ∨ q.build_no = h.build_no
  /-- the name is that of the query -/
  name : q.version ≠ [] → q.artifact_name ≠ [] ∨ h.artifact_name = []
  build_no : q.version ≠ [] → q.build_no ≠ [] ∨ h.build_no = []
  version : q.version = [] → q.artifact_name ≠ [] → h.version = []

theorem splitsWell_iff {q h : ArtifactMetadata} : SplitsWell q h
    ↔ (q.artifact_name = [] → q.version = [] →
        h.version = [] ∨ q.build_no = [] ∨ q.build_no = h.build_no)
      ∧ (q.version ≠ [] → q.artifact_name ≠ [] ∨ h.artifact_name = [])
      ∧ (q.version ≠ [] → q.build_no ≠ [] ∨ h.build_no = [])
      ∧ (q.version = [] → q.artifact_name ≠ [] → h.version = []) :=
  ⟨fun ⟨h₁, h₂, h₃, h₄⟩ => ⟨h₁, h₂, h₃, h₄⟩, fun ⟨h₁, h₂, h₃, h₄⟩ => ⟨h₁, h₂, h₃, h₄⟩⟩

instance (q h : ArtifactMetadata) : Decidable (SplitsWell q h) :=
  decidable_of_iff _ splitsWell_iff.symm

/-- With a header, if there is one. -/
def Consistent (r : ChunkRequest) : Prop :=
  ∀ h ∈ headerMeta r, SplitsWell (queryMeta r) h

end ChunkUploadServlet

/-- The name that a delete of the same fields looks for. -/
def ArtifactMetadata.NamedAlike (m : ArtifactMetadata) : Prop :=
  m.storage_name = BuildStorageName m.artifact_name m.version m.build_no

section

variable {name version build_no build_no' : Str}

theorem BuildStorageName_of_version (h : version ≠ []) :
    BuildStorageName name version build_no = version ++ '/' ::
      if build_no = [] then name else build_no ++ '/' :: name := by
  rw [BuildStorageName, if_neg h]
  split_ifs <;> rfl

theorem BuildStorageName_eq_nil :
    BuildStorageName name version build_no = [] ↔ version = [] ∧ name = [] := by
  by_cases hversion : version = []
  · rw [BuildStorageName, if_pos hversion]
    simp only [hversion, true_and]
  · rw [BuildStorageName_of_version hversion]
    simp only [List.append_eq_nil_iff, hversion, false_and]

/-- A longer name is another one. -/
theorem ne_append_cons (s : Str) (c : Char) (s' : Str) : s' ≠ s ++ c :: s' := by
  intro heq
  have hlength := congrArg List.length heq
  rw [List.length_append, List.length_cons] at hlength
  omega

/-- Behind a version the name is longer. -/
theorem BuildStorageName_ne (h : version ≠ []) :
    name ≠ BuildStorageName name version build_no := by
  rw [BuildStorageName_of_version h]
  split_ifs
  · exact ne_append_cons _ _ _
  · rw [← List.cons_append, ← List.append_assoc]
    exact ne_append_cons _ _ _

/-- The build that the name has behind a version. -/
theorem BuildStorageName_build_no (h : version ≠ []) :
    BuildStorageName name version build_no = BuildStorageName name version build_no'
      ↔ build_no = build_no' := by
  constructor
  · intro heq
    rw [BuildStorageName_of_version h, BuildStorageName_of_version h] at heq
    have htail := List.cons.inj (List.append_cancel_left heq) |>.2
    by_cases hb : build_no = [] <;> by_cases hb' : build_no' = []
    · rw [hb, hb']
    · rw [if_pos hb, if_neg hb'] at htail
      exact absurd htail (ne_append_cons _ _ _)
    · rw [if_neg hb, if_pos hb'] at htail
      exact absurd htail.symm (ne_append_cons _ _ _)
    · rw [if_neg hb, if_neg hb'] at htail
      exact List.append_cancel_right htail
  · exact fun heq => by rw [heq]

end

theorem namedAlike_fromFields {owner checksum artifact_name type version build_no branch
    commit_id : Str} {size : Int} {explicit_artifact_mode : Bool} :
    (ArtifactMetadata.FromFields owner checksum artifact_name size type version build_no branch
      commit_id explicit_artifact_mode).NamedAlike := rfl

namespace ChunkUploadServlet

theorem orElse_of_nil {x y : Str} (h : x = []) : orElse x y = y := if_pos h

theorem orElse_of_ne {x y : Str} (h : x ≠ []) : orElse x y = x := if_neg h

theorem eq_orElse {x y : Str} : x = orElse x y ↔ x ≠ [] ∨ y = [] := by
  by_cases hx : x = []
  · rw [orElse_of_nil hx, hx]
    simp only [ne_eq, not_true_eq_false, false_or]
    exact eq_comm
  · rw [orElse_of_ne hx]
    exact iff_of_true rfl (.inl hx)

section

variable {name name' version build_no build_no' : Str}

/-- The header's name, with the build of the query. -/
theorem eq_name_of_header : BuildStorageName name version build_no'
      = BuildStorageName name version (orElse build_no build_no')
    ↔ version = [] ∨ build_no = [] ∨ build_no = build_no' := by
  by_cases hversion : version = []
  · rw [BuildStorageName, if_pos hversion, BuildStorageName, if_pos hversion]
    exact iff_of_true rfl (.inl hversion)
  · rw [BuildStorageName_build_no hversion, or_iff_right hversion]
    by_cases hbuild : build_no = []
    · rw [orElse_of_nil hbuild]
      exact iff_of_true rfl (.inl hbuild)
    · rw [orElse_of_ne hbuild, or_iff_right hbuild]
      exact eq_comm

/-- A name without a version, and the version of the header. -/
theorem eq_name_of_query : name = BuildStorageName name version build_no ↔ version = [] := by
  refine ⟨fun heq => ?_, fun hversion => by rw [BuildStorageName, if_pos hversion]⟩
  by_contra hversion
  exact BuildStorageName_ne hversion heq

/-- What is behind the version of the query, when the header has more. -/
theorem eq_name_of_version (hversion : version ≠ []) :
    BuildStorageName name version build_no
        = BuildStorageName (orElse name name') version (orElse build_no build_no')
      ↔ (name ≠ [] ∨ name' = []) ∧ (build_no ≠ [] ∨ build_no' = []) := by
  rw [BuildStorageName_of_version hversion, BuildStorageName_of_version hversion,
    List.append_cancel_left_eq, List.cons.injEq, and_iff_right rfl]
  by_cases hbuild : build_no = []
  · rw [if_pos hbuild, orElse_of_nil hbuild, or_iff_right (not_not_intro hbuild)]
    by_cases hbuild' : build_no' = []
    · rw [if_pos hbuild', eq_orElse, and_iff_left hbuild']
    · rw [if_neg hbuild']
      refine iff_of_false ?_ fun hand => hbuild' hand.2
      by_cases hname : name = []
      · rw [hname]
        exact (List.append_ne_nil_of_right_ne_nil _ (List.cons_ne_nil _ _)).symm
      · rw [orElse_of_ne hname]
        exact ne_append_cons _ _ _
  · rw [orElse_of_ne hbuild, if_neg hbuild, if_neg hbuild, List.append_cancel_left_eq,
      List.cons.injEq, and_iff_right rfl, eq_orElse, and_iff_left (.inl hbuild)]

end

/-- **The name of fields from two sides**, when each side has joined its own. -/
theorem namedAlike_fillFrom {q h : ArtifactMetadata} (hq : q.NamedAlike) (hh : h.NamedAlike) :
    (fillFrom q h).NamedAlike ↔ SplitsWell q h := by
  change orElse q.storage_name h.storage_name = BuildStorageName (orElse q.artifact_name
    h.artifact_name) (orElse q.version h.version) (orElse q.build_no h.build_no) ↔ _
  rw [splitsWell_iff, hq, hh]
  by_cases hversion : q.version = []
  · have hquery : BuildStorageName q.artifact_name q.version q.build_no = q.artifact_name :=
      if_pos hversion
    rw [hquery, orElse_of_nil hversion]
    by_cases hname : q.artifact_name = []
    · rw [orElse_of_nil hname, orElse_of_nil hname, eq_name_of_header]
      simp only [hname, hversion, ne_eq, not_true_eq_false, false_imp_iff, forall_const, and_true]
    · rw [orElse_of_ne hname, orElse_of_ne hname, eq_name_of_query]
      simp only [hname, hversion, ne_eq, not_true_eq_false, not_false_eq_true, false_imp_iff,
        forall_const, true_and]
  · have hnonempty : BuildStorageName q.artifact_name q.version q.build_no ≠ [] :=
      fun hnil => hversion (BuildStorageName_eq_nil.mp hnil).1
    rw [orElse_of_ne hnonempty, orElse_of_ne hversion, eq_name_of_version hversion]
    simp only [hversion, ne_eq, not_false_eq_true, forall_const, false_imp_iff, implies_true,
      true_and, and_true]

theorem namedAlike_withHeader {c : Chunk} {members : Str → Option Value}
    (hc : c.request_meta.NamedAlike) : (withHeader c members).request_meta.NamedAlike
      ↔ SplitsWell c.request_meta (ArtifactMetadata.FromJson members) :=
  namedAlike_fillFrom hc namedAlike_fromFields

/-- The metadata of a chunk upload. -/
theorem namedAlike_chunkMeta {r : ChunkRequest} {c : Chunk} (h : chunkMeta r = some c) :
    c.request_meta.NamedAlike ↔ Consistent r := by
  have hquery : (queryMeta r).NamedAlike := namedAlike_fromFields
  unfold chunkMeta at h
  unfold Consistent headerMeta
  cases hheader : r.meta_header with
  | none =>
    rw [hheader] at h
    obtain rfl := Option.some.inj h
    exact iff_of_true hquery nofun
  | some json =>
    rw [hheader] at h
    cases json with
    | object members =>
      obtain rfl := Option.some.inj h
      rw [namedAlike_withHeader hquery]
      simp only [Option.bind_some, ArtifactMetadata.ofJson, Option.mem_some_iff, forall_eq']
      rfl
    | null =>
      obtain rfl := Option.some.inj h
      rw [namedAlike_withHeader hquery]
      simp only [Option.bind_some, ArtifactMetadata.ofJson, Option.mem_some_iff, forall_eq']
      rfl
    | other => exact nomatch h

end ChunkUploadServlet

/-! ### The rows of a chunk upload -/

/-- The request adds a file record and an artifact. -/
structure Inserts (s t : Store) (f : FileInfo) (a : ArtifactInfo) : Prop where
  file : t.db.file_info = s.db.file_info ++ [f]
  artifact : t.db.artifact_info = s.db.artifact_info ++ [a]

section

variable {m : ArtifactMetadata} {file_id : Str} {f : FileInfo} {a : ArtifactInfo}

theorem not_inserts_of_db (h : t.db = s.db) : ¬ Inserts s t f a := by
  rintro ⟨hfile, -⟩
  rw [h, List.self_eq_append_right] at hfile
  exact List.cons_ne_nil _ _ hfile

theorem inserted_recordArtifact {db : Tables} {b : ArtifactInfo}
    (h : (db.recordArtifact fates b).artifact_info = db.artifact_info ++ [a]) : a = b := by
  rw [Tables.recordArtifact] at h
  split_ifs at h
  · exact (List.singleton_inj.mp (List.append_cancel_left h)).symm
  · rw [List.self_eq_append_right] at h
    exact absurd h (List.cons_ne_nil _ _)

/-- The rows are those of the metadata. -/
theorem UploadOutcome.inserted {d : Option DbResult}
    (hout : UploadOutcome fates s.db m file_id d t.db) (h : Inserts s t f a) :
    f = fileRow m file_id m.type ∧ a = BuildArtifactInfo m file_id := by
  obtain ⟨hfile, hartifact⟩ := h
  have hrecord : t.db
        = (s.db.addUpload m file_id).recordArtifact fates (BuildArtifactInfo m file_id) →
      f = fileRow m file_id m.type ∧ a = BuildArtifactInfo m file_id := by
    intro hdb
    rw [hdb, file_info_recordArtifact] at hfile
    rw [hdb] at hartifact
    exact ⟨(List.singleton_inj.mp (List.append_cancel_left hfile)).symm,
      inserted_recordArtifact hartifact⟩
  generalize hdb : t.db = db at hout
  cases hout with
  | kept r hr h => exact absurd ⟨hfile, hartifact⟩ (not_inserts_of_db hdb)
  | stored hw ht =>
    rw [Tables.stored] at hdb
    split_ifs at hdb
    · exact hrecord hdb
    · rw [hdb] at hartifact
      exact absurd (List.self_eq_append_right.mp hartifact) (List.cons_ne_nil _ _)
  | torn r hr h hsome => exact hrecord hdb

end

/-- **The rows that a chunk upload inserts in artifact mode**: the name of the file record is that
of the artifact exactly when the query and the header split it well, and then the delete of the
artifact finds the record. -/
theorem inserted_consistent_iff {token : Str} {r : ChunkRequest} {f : FileInfo} {a : ArtifactInfo}
    (h : Inserts s (serve env fates (.chunk token r) s).2 f a) :
    (f.filename = BuildStorageName a.artifact_name a.version a.build_no
        ↔ ChunkUploadServlet.Consistent r)
      ∧ ∀ json m, ArtifactMetadata.ofJson json = some m → m.coordinate = a.coordinate →
        (f.owner = m.owner ∧ f.filename = m.storage_name ↔ ChunkUploadServlet.Consistent r) := by
  obtain ⟨resp, t, hrun, hcases⟩ :=
    ChunkUploadServlet.handle_cases env fates s ⟨ChunkUploadServlet.path, token⟩ r
  have hserve : serve env fates (.chunk token r) s = (some resp, t) := serve_eq hrun
  rw [hserve] at h
  obtain ⟨hquiet, -⟩ | ⟨c, file_id, d, hreaches, -, hout, -⟩ := hcases
  · exact absurd h (not_inserts_of_db hquiet.1)
  · obtain ⟨rfl, rfl⟩ := hout.inserted h
    have hname := ChunkUploadServlet.namedAlike_chunkMeta hreaches.chunk
    refine ⟨hname, fun json m hm hcoordinate => ?_⟩
    have hnames := names_of_coordinate hm hcoordinate
    rw [hnames.owner, hnames.name]
    exact (and_iff_right rfl).trans hname

/-- A file of one chunk for the artifact of `sampleUpload`. -/
def sampleParam (key : Str) : Str :=
  if key = "total_chunks".toList then "1".toList
  else if key = "chunk_index".toList then "0".toList
  else (sampleParams key).getD []

/-- The same without the version and the build. -/
def shortParam (key : Str) : Str :=
  if key = "version".toList ∨ key = "build_no".toList then [] else sampleParam key

/-- The version and the build. -/
def headerMembers (key : Str) : Option Value :=
  if key = "version".toList ∨ key = "build_no".toList then some (.string "1".toList) else none

def sampleChunk (param : Str → Str) : ChunkRequest :=
  ⟨param, [], some (.object headerMembers), [0]⟩

/-- The row of `sampleUpload` under a name. -/
def namedRow (filename : String) : FileInfo :=
  ⟨"c".toList, sampleEnv.newFileId 0, "p".toList, filename.toList, 1, "bin".toList⟩

def sampleArtifact : ArtifactInfo :=
  ⟨"p".toList, "1".toList, "1".toList, "a".toList, "c".toList, sampleEnv.newFileId 0, 1,
    "bin".toList, [], []⟩

/-- The version and the build are in the query, and in the header too. -/
theorem inserted_consistent_iff_sampleParam :
    (namedRow "1/1/a").filename = sampleArtifact.storage_name := by
  have h : Inserts sampleStore
      (serve sampleEnv allOk (.chunk "t".toList (sampleChunk sampleParam)) sampleStore).2
      (namedRow "1/1/a") sampleArtifact := ⟨by decide +kernel, by decide +kernel⟩
  refine (inserted_consistent_iff h).1.mpr fun m hm => ?_
  obtain rfl := Option.some.inj hm
  decide +kernel

/-- They are in the header alone, and the row is that of an artifact without a version. -/
theorem split_not_consistent :
    ∃ f a, Inserts sampleStore
        (serve sampleEnv allOk (.chunk "t".toList (sampleChunk shortParam)) sampleStore).2 f a
      ∧ f.filename ≠ BuildStorageName a.artifact_name a.version a.build_no :=
  ⟨namedRow "a", sampleArtifact, ⟨by decide +kernel, by decide +kernel⟩, by decide +kernel⟩

/-! ### Names of coordinates -/

def Coordinate.storage_name (c : Coordinate) : Str :=
  BuildStorageName c.artifact_name c.version c.build_no

/-- No separator in a field, and no build without a version. -/
structure Coordinate.Plain (c : Coordinate) : Prop where
  artifact_name : '/' ∉ c.artifact_name
  version : '/' ∉ c.version
  build_no : '/' ∉ c.build_no
  versioned : c.version = [] → c.build_no = []

/-- The fields that are not empty. -/
theorem Coordinate.Plain.splitOn {c : Coordinate} (h : c.Plain) : c.storage_name.splitOn '/'
    = if c.version = [] then [c.artifact_name]
      else if c.build_no = [] then [c.version, c.artifact_name]
      else [c.version, c.build_no, c.artifact_name] := by
  rw [Coordinate.storage_name, BuildStorageName]
  split_ifs
  · exact List.splitOn_eq_singleton h.artifact_name
  · rw [List.splitOn_append_cons_self, List.splitOn_eq_singleton h.version,
      List.splitOn_eq_singleton h.artifact_name]
    rfl
  · rw [List.splitOn_append_cons_self, List.splitOn_append_cons_self,
      List.splitOn_eq_singleton h.version, List.splitOn_eq_singleton h.build_no,
      List.splitOn_eq_singleton h.artifact_name]
    rfl

theorem Coordinate.Plain.eq {c c' : Coordinate} (h : c.Plain) (h' : c'.Plain)
    (hproject : c.project_name = c'.project_name) (hname : c.storage_name = c'.storage_name) :
    c = c' := by
  have hsplit := congrArg (List.splitOn '/') hname
  rw [h.splitOn, h'.splitOn] at hsplit
  have hversioned := h.versioned
  have hversioned' := h'.versioned
  cases c
  cases c'
  grind

/-! ### The rows that a request adds -/

/-- The request gets to write rows, and this is its metadata. -/
def Writes (env : Env) (fates : Fates) (s : Store) : Request → ArtifactMetadata → Prop
  | .precheck token body, m =>
    UploadServlet.Looks env fates s ⟨UploadServlet.path, token⟩ body m
      ∧ ∃ file_id, UploadServlet.Reuses env fates s m file_id
        ∨ UploadServlet.Shares env fates s m file_id
  | .direct token params body, m =>
    m = ArtifactMetadata.FromParams params
      ∧ ∃ file_id,
        DirUploadServlet.Reaches env fates s ⟨DirUploadServlet.path, token⟩ m body file_id
  | .chunk token r, m => ∃ c file_id,
    ChunkUploadServlet.Reaches env fates s ⟨ChunkUploadServlet.path, token⟩ r c file_id
      ∧ m = c.request_meta
  | .delete _ _, _ => False

/-- What is added for the metadata. -/
structure AddsFor (m : ArtifactMetadata) (db db' : Tables) : Prop where
  file : db'.file_info = db.file_info ∨ ∃ f, db'.file_info = db.file_info ++ [f]
    ∧ f.owner = m.owner ∧ f.filename = m.storage_name
  artifact : ∀ a ∈ db'.artifact_info,
    a ∈ db.artifact_info ∨ m.artifact_mode ∧ a.coordinate = m.coordinate

namespace AddsFor

variable {m : ArtifactMetadata} {file_id : Str} {db db' : Tables}

theorem refl : AddsFor m db db := ⟨.inl rfl, fun _ ha => .inl ha⟩

/-- A file record, and an artifact in artifact mode. -/
theorem record {f : FileInfo} (hfile : db'.file_info = db.file_info ++ [f])
    (howner : f.owner = m.owner) (hname : f.filename = m.storage_name)
    (hartifact : db'.artifact_info = db.artifact_info) (hmode : m.artifact_mode) :
    AddsFor m db (db'.recordArtifact fates (BuildArtifactInfo m file_id)) := by
  have hrecorded : Recorded db' (BuildArtifactInfo m file_id)
      (db'.recordArtifact fates (BuildArtifactInfo m file_id)) := recorded_recordArtifact _ _
  refine ⟨.inr ⟨f, hrecorded.file_info.trans hfile, howner, hname⟩, fun a ha => ?_⟩
  obtain ha | rfl := hrecorded.artifact_info ha
  · exact .inl (hartifact ▸ ha)
  · exact .inr ⟨hmode, rfl⟩

theorem of_upload {d : Option DbResult} (h : UploadOutcome fates db m file_id d db') :
    AddsFor m db db' := by
  have hfile : (db.addUpload m file_id).file_info = db.file_info ++ [fileRow m file_id m.type] :=
    rfl
  cases h with
  | kept r hr h => exact refl
  | stored hw ht =>
    rw [Tables.stored]
    split_ifs with hmode
    · exact record hfile rfl rfl rfl hmode
    · exact ⟨.inr ⟨_, hfile, rfl, rfl⟩, fun _ ha => .inl ha⟩
  | torn r hr h hsome => exact record hfile rfl rfl rfl h.2.1

/-- A precheck that writes has found its file. -/
theorem of_precheck {d : Option UploadServlet.DbResult}
    (h : UploadServlet.Outcome env fates s m d db') :
    AddsFor m s.db db' ∧ (db' = s.db ∨ ∃ file_id, UploadServlet.Reuses env fates s m file_id
      ∨ UploadServlet.Shares env fates s m file_id) := by
  have hfile : ∀ file_id, (s.db.addShare m file_id).file_info
      = s.db.file_info ++ [fileRow m file_id []] := fun _ => rfl
  cases h with
  | kept r hreuse hshare => exact ⟨refl, .inl rfl⟩
  | reused r file_id h hcode =>
    refine ⟨⟨.inl (file_info_recordArtifact _ _), fun a ha => ?_⟩, .inr ⟨file_id, .inl h⟩⟩
    obtain ha | rfl := (recorded_recordArtifact _ _).artifact_info ha
    · exact .inl ha
    · exact .inr ⟨h.mode, rfl⟩
  | shared r file_id h hcode hw ht =>
    refine ⟨?_, .inr ⟨file_id, .inr h⟩⟩
    rw [Tables.sharing]
    split_ifs with hmode
    · exact record (hfile file_id) rfl rfl rfl hmode
    · exact ⟨.inr ⟨_, hfile file_id, rfl, rfl⟩, fun _ ha => .inl ha⟩
  | torn r file_id h hcode hw ht =>
    exact ⟨record (hfile file_id) rfl rfl rfl ht.1, .inr ⟨file_id, .inr h⟩⟩

end AddsFor

/-- **The rows of a precheck or an upload.** -/
theorem serve_addsFor (env : Env) (fates : Fates) (s : Store) {req : Request}
    (hreq : req.isDelete = false) :
    (serve env fates req s).2.db = s.db
      ∨ ∃ m, Writes env fates s req m ∧ req.metadata = some m
        ∧ AddsFor m s.db (serve env fates req s).2.db := by
  cases req with
  | precheck token body =>
    obtain ⟨r, t, hrun, -, -, hcases⟩ :=
      UploadServlet.handle_cases env fates s ⟨UploadServlet.path, token⟩ body
    rw [serve_eq hrun]
    obtain ⟨hdb, -⟩ | ⟨m, d, hlooks, hout, -⟩ := hcases
    · exact .inl hdb
    · obtain ⟨hadds, hdb | hfound⟩ := AddsFor.of_precheck hout
      · exact .inl hdb
      · obtain ⟨members, rfl, rfl⟩ := hlooks.body
        exact .inr ⟨_, ⟨hlooks, hfound⟩, rfl, hadds⟩
  | direct token params body =>
    obtain ⟨r, t, hrun, hcases⟩ :=
      DirUploadServlet.handle_cases env fates s ⟨DirUploadServlet.path, token⟩ params body
    rw [serve_eq hrun]
    obtain ⟨hquiet, -⟩ | ⟨file_id, d, hreaches, -, hout, -⟩ := hcases
    · exact .inl hquiet.1
    · exact .inr ⟨_, ⟨rfl, file_id, hreaches⟩, rfl, .of_upload hout⟩
  | chunk token r =>
    obtain ⟨resp, t, hrun, hcases⟩ :=
      ChunkUploadServlet.handle_cases env fates s ⟨ChunkUploadServlet.path, token⟩ r
    rw [serve_eq hrun]
    obtain ⟨hquiet, -⟩ | ⟨c, file_id, d, hreaches, -, hout, -⟩ := hcases
    · exact .inl hquiet.1
    · refine .inr ⟨c.request_meta, ⟨c, file_id, hreaches, rfl⟩, ?_, .of_upload hout⟩
      rw [Request.metadata, hreaches.chunk]
      rfl
  | delete token body => cases hreq

/-! ### The row that a delete removes -/

/-- The rows that a delete leaves when it succeeds. -/
theorem file_info_of_delete {token : Str} {json : Json} {m : ArtifactMetadata}
    (hm : ArtifactMetadata.ofJson json = some m)
    (h : Succeeds env s (fates, .delete token (some json))) :
    (serve env fates (.delete token (some json)) s).2.db.file_info
      = s.db.file_info.filter fun f => ¬ (f.owner = m.owner ∧ f.filename = m.storage_name) := by
  obtain ⟨r, t, hrun, hcases⟩ :=
    DeleteFileServlet.handle_cases env fates s ⟨DeleteFileServlet.path, token⟩ (some json)
  obtain ⟨r', hr', hret⟩ := h
  have hserve : serve env fates (.delete token (some json)) s = (some r, t) := serve_eq hrun
  rw [hserve] at hr'
  obtain rfl := Option.some.inj hr'
  rw [hserve]
  obtain ⟨hfailed, -⟩ | ⟨m', a, d, db, hfinds, hout, hans⟩ := hcases
  · exact nomatch hfailed.symm.trans hret
  · obtain ⟨json', hjson, hm'⟩ := hfinds.body
    cases hjson
    obtain rfl := Option.some.inj (hm'.symm.trans hm)
    rw [(hout.of_ret hans hret).2]
    exact file_info_without _ _ _

/-! ### Runs -/

/-- The coordinate that a request uploads a file for. -/
def Request.coordinate (req : Request) : Option Coordinate :=
  req.metadata.bind fun m => if m.artifact_mode then some m.coordinate else none

/-- The file records, each with the coordinate that it was inserted for. -/
structure Traced where
  store : Store
  rows : List (FileInfo × Option Coordinate)

/-- A precheck or an upload, whatever its answer. -/
def Traced.step (env : Env) (s : Traced) (x : Fates × Request) : Option Traced :=
  if x.2.isDelete then none
  else
    let t := (serve env x.1 x.2 s.store).2
    some ⟨t, s.rows ++ (t.db.file_info.drop s.store.db.file_info.length).map
      fun f => (f, x.2.coordinate)⟩

/-- A delete takes the row that was inserted for its coordinate, and no other row. -/
structure DeletesExactly (env : Env) (s : Traced) : Prop where
  rows : s.rows.map Prod.fst = s.store.db.file_info
  /-- a coordinate has one row, if it has any -/
  once : (s.rows.filterMap Prod.snd).Nodup
  removes : ∀ a ∈ s.store.db.artifact_info, ∀ fates token json m,
    ArtifactMetadata.ofJson json = some m → m.coordinate = a.coordinate →
    Succeeds env s.store (fates, .delete token (some json)) →
    (serve env fates (.delete token (some json)) s.store).2.db.file_info
      = (s.rows.filter fun r => r.2 ≠ some a.coordinate).map Prod.fst
  apart : ∀ a ∈ s.store.db.artifact_info, ∀ a' ∈ s.store.db.artifact_info,
    a.project_name = a'.project_name → a.storage_name = a'.storage_name →
    a.coordinate = a'.coordinate

/-- The name of a request is that of its coordinate, and no other row has it. -/
structure Separate (db : Tables) (m : ArtifactMetadata) : Prop where
  alike : m.artifact_mode → m.NamedAlike
  artifacts : ∀ a ∈ db.artifact_info, a.project_name = m.owner → a.storage_name = m.storage_name →
    m.artifact_mode ∧ a.coordinate = m.coordinate
  files : m.artifact_mode → ∀ f ∈ db.file_info, ¬ (f.owner = m.owner ∧ f.filename = m.storage_name)

def Traced.Separate (env : Env) (s : Traced) (x : Fates × Request) : Prop :=
  ∀ m, Writes env x.1 s.store x.2 m → FiberServer.Separate s.store.db m

/-- What the rows of separate requests have in common: a row has the name of an artifact exactly
when it was inserted for its coordinate. -/
structure Separated (s : Traced) : Prop where
  rows : s.rows.map Prod.fst = s.store.db.file_info
  once : (s.rows.filterMap Prod.snd).Nodup
  named : ∀ r ∈ s.rows, ∀ c, r.2 = some c →
    r.1.owner = c.project_name ∧ r.1.filename = c.storage_name
  own : ∀ r ∈ s.rows, ∀ a ∈ s.store.db.artifact_info, r.1.owner = a.project_name →
    r.1.filename = a.storage_name → r.2 = some a.coordinate
  apart : ∀ a ∈ s.store.db.artifact_info, ∀ a' ∈ s.store.db.artifact_info,
    a.project_name = a'.project_name → a.storage_name = a'.storage_name →
    a.coordinate = a'.coordinate

/-- An artifact is filed under the name of its coordinate. -/
theorem names_of_eq {a : ArtifactInfo} {c : Coordinate} (h : a.coordinate = c) :
    a.project_name = c.project_name ∧ a.storage_name = c.storage_name := by
  obtain rfl := h
  exact ⟨rfl, rfl⟩

namespace Separated

variable {u u' : Traced} {m : ArtifactMetadata}

theorem deletesExactly (h : Separated u) : DeletesExactly env u where
  rows := h.rows
  once := h.once
  removes := by
    intro a ha fates token json m hm hcoordinate hsucceeds
    have hnames := names_of_coordinate hm hcoordinate
    rw [file_info_of_delete hm hsucceeds, ← h.rows, List.filter_map]
    refine congrArg _ (List.filter_congr fun r hr => ?_)
    rw [Function.comp_apply, decide_eq_decide, hnames.owner, hnames.name, not_iff_not]
    exact ⟨fun hnamed => h.own r hr a ha hnamed.1 hnamed.2, fun htag => h.named r hr _ htag⟩
  apart := h.apart

/-- The names of a request that is separate, in artifact mode. -/
theorem coordinate_names (hs : FiberServer.Separate u.store.db m) (hmode : m.artifact_mode) :
    m.owner = m.coordinate.project_name ∧ m.storage_name = m.coordinate.storage_name :=
  ⟨rfl, hs.alike hmode⟩

/-- The artifact of a request has no row yet, and its name is its own. -/
theorem add_artifacts (h : Separated u) (hs : FiberServer.Separate u.store.db m)
    (hrows : u'.rows = u.rows) (hfile : u'.store.db.file_info = u.store.db.file_info)
    (hartifact : ∀ a ∈ u'.store.db.artifact_info,
      a ∈ u.store.db.artifact_info ∨ m.artifact_mode ∧ a.coordinate = m.coordinate) :
    Separated u' := by
  have hnew : ∀ {a : ArtifactInfo}, m.artifact_mode ∧ a.coordinate = m.coordinate →
      a.project_name = m.owner ∧ a.storage_name = m.storage_name := by
    rintro a ⟨hmode, hcoordinate⟩
    obtain ⟨hproject, hname⟩ := names_of_eq hcoordinate
    exact ⟨hproject, hname.trans (coordinate_names hs hmode).2.symm⟩
  refine ⟨?_, hrows ▸ h.once, hrows ▸ h.named, fun r hr a ha howner hname => ?_,
    fun a ha a' ha' hproject hname => ?_⟩
  · rw [hrows, hfile]
    exact h.rows
  · rw [hrows] at hr
    obtain ha | ha := hartifact a ha
    · exact h.own r hr a ha howner hname
    · -- the name was free
      have hmem : r.1 ∈ u.store.db.file_info := h.rows ▸ List.mem_map_of_mem hr
      obtain ⟨hproject, hstorage⟩ := hnew ha
      exact absurd ⟨howner.trans hproject, hname.trans hstorage⟩ (hs.files ha.1 r.1 hmem)
  · obtain ha | ha := hartifact a ha <;> obtain ha' | ha' := hartifact a' ha'
    · exact h.apart a ha a' ha' hproject hname
    · obtain ⟨hproject', hname'⟩ := hnew ha'
      exact (hs.artifacts a ha (hproject.trans hproject') (hname.trans hname')).2.trans ha'.2.symm
    · obtain ⟨hproject', hname'⟩ := hnew ha
      exact ha.2.trans (hs.artifacts a' ha' (hproject.symm.trans hproject')
        (hname.symm.trans hname')).2.symm
    · exact ha.2.trans ha'.2.symm

/-- The row of a request is the first one for its coordinate. -/
theorem add_row (h : Separated u) (hs : FiberServer.Separate u.store.db m) {f : FileInfo}
    (howner : f.owner = m.owner) (hname : f.filename = m.storage_name)
    (hrows : u'.rows = u.rows ++ [(f, if m.artifact_mode then some m.coordinate else none)])
    (hfile : u'.store.db.file_info = u.store.db.file_info ++ [f])
    (hartifact : u'.store.db.artifact_info = u.store.db.artifact_info) : Separated u' := by
  have hnamed : ∀ c, (if m.artifact_mode then some m.coordinate else none) = some c →
      m.artifact_mode ∧ f.owner = c.project_name ∧ f.filename = c.storage_name := by
    intro c hc
    split_ifs at hc with hmode
    obtain rfl := Option.some.inj hc
    obtain ⟨hproject, hstorage⟩ := coordinate_names hs hmode
    exact ⟨hmode, howner.trans hproject, hname.trans hstorage⟩
  refine ⟨?_, ?_, fun r hr c hc => ?_, fun r hr a ha hproject hstorage => ?_,
    hartifact ▸ h.apart⟩
  · rw [hrows, hfile, List.map_append, h.rows]
    rfl
  · rw [hrows, List.filterMap_append, List.nodup_append]
    refine ⟨h.once, ?_, fun c hc c' hc' heq => ?_⟩
    · split_ifs
      · exact List.nodup_singleton _
      · exact List.nodup_nil
    · -- the rows of the coordinate would have its name
      obtain ⟨r, hr, htag⟩ := List.mem_filterMap.mp hc
      obtain ⟨r', hr', htag'⟩ := List.mem_filterMap.mp hc'
      obtain rfl := List.mem_singleton.mp hr'
      obtain ⟨hmode, hproject', hstorage'⟩ := hnamed c' htag'
      obtain ⟨hproject, hstorage⟩ := h.named r hr c htag
      obtain rfl := heq
      have hmem : r.1 ∈ u.store.db.file_info := h.rows ▸ List.mem_map_of_mem hr
      exact hs.files hmode r.1 hmem ⟨hproject.trans (hproject'.symm.trans howner),
        hstorage.trans (hstorage'.symm.trans hname)⟩
  · rw [hrows] at hr
    obtain hr | hr := List.mem_append.mp hr
    · exact h.named r hr c hc
    · obtain rfl := List.mem_singleton.mp hr
      exact (hnamed c hc).2
  · rw [hartifact] at ha
    rw [hrows] at hr
    obtain hr | hr := List.mem_append.mp hr
    · exact h.own r hr a ha hproject hstorage
    · obtain rfl := List.mem_singleton.mp hr
      obtain ⟨hmode, hcoordinate⟩ := hs.artifacts a ha (hproject.symm.trans howner)
        (hstorage.symm.trans hname)
      rw [hcoordinate]
      exact if_pos hmode

/-- Rows of a separate request. -/
theorem add (h : Separated u) (hs : FiberServer.Separate u.store.db m) {t : Store}
    (hadds : AddsFor m u.store.db t.db) (hu' : u' = ⟨t, u.rows ++ (t.db.file_info.drop
      u.store.db.file_info.length).map
        fun f => (f, if m.artifact_mode then some m.coordinate else none)⟩) : Separated u' := by
  obtain ⟨hfile, hartifact⟩ := hadds
  obtain hfile | ⟨f, hfile, howner, hname⟩ := hfile
  · have hrows : u'.rows = u.rows := by
      rw [hu', hfile, List.drop_length]
      exact List.append_nil _
    subst hu'
    exact h.add_artifacts hs hrows hfile hartifact
  · -- the artifact first, then the row
    let u₁ : Traced :=
      ⟨u.store.setDb { u.store.db with artifact_info := t.db.artifact_info }, u.rows⟩
    have h₁ : Separated u₁ := h.add_artifacts hs rfl rfl hartifact
    have hs₁ : FiberServer.Separate u₁.store.db m := by
      refine ⟨hs.alike, fun a ha hproject hstorage => ?_, hs.files⟩
      obtain ha | ha := hartifact a ha
      · exact hs.artifacts a ha hproject hstorage
      · exact ha
    have hrows : u'.rows
        = u₁.rows ++ [(f, if m.artifact_mode then some m.coordinate else none)] := by
      rw [hu', hfile, List.drop_left]
      rfl
    subst hu'
    exact h₁.add_row hs₁ howner hname hrows hfile rfl

theorem step {x : Fates × Request} (h : Separated u) (hs : u.Separate env x)
    (hstep : u.step env x = some u') : Separated u' := by
  unfold Traced.step at hstep
  split_ifs at hstep with hreq
  have hu' := (Option.some.inj hstep).symm
  obtain hdb | ⟨m, hwrites, hm, hadds⟩ := serve_addsFor env x.1 u.store (eq_false_of_ne_true hreq)
  · have hrows : u'.rows = u.rows := by
      rw [hu', hdb, List.drop_length]
      exact List.append_nil _
    have hstore : u'.store.db = u.store.db := by rw [hu', hdb]
    refine ⟨?_, ?_, ?_, ?_, ?_⟩ <;> simp only [hrows, hstore]
    exacts [h.rows, h.once, h.named, h.own, h.apart]
  · refine h.add (hs m hwrites) hadds ?_
    rw [hu', Request.coordinate, hm]
    rfl

end Separated

theorem separated_of_empty (h : s.Empty) : Separated ⟨s, []⟩ where
  rows := h.file_info.symm
  once := List.nodup_nil
  named := nofun
  own := nofun
  apart := by
    rw [h.artifact_info]
    exact nofun

/-- **A delete removes the row of its coordinate alone**, after uploads from empty tables whose
names are apart: the name of an upload in artifact mode is that of its coordinate, no file record
has it, and no artifact of another coordinate.  Names of coordinates without separators in their
fields are apart. -/
theorem exact_throughout (hempty : s.Empty) {xs : List (Fates × Request)}
    (hxs : Along (Traced.step env) (Traced.Separate env) ⟨s, []⟩ xs) :
    Throughout (Traced.step env) (DeletesExactly env) ⟨s, []⟩ xs
      ∧ ∀ c c' : Coordinate, c.Plain → c'.Plain → c.project_name = c'.project_name →
        c.storage_name = c'.storage_name → c = c' := by
  refine ⟨hxs.throughout ?_ (fun u hu => hu.deletesExactly) (separated_of_empty hempty),
    fun c c' hc hc' => hc.eq hc'⟩
  intro u x u' hu hx hstep
  exact hu.step hx hstep

/-- Two projects have the same names. -/
theorem exact_throughout_twoProjects :
    Throughout (Traced.step sampleEnv) (DeletesExactly sampleEnv) ⟨twoProjects, []⟩
      [(allOk, sampleUpload), (allOk, samplePrecheck "q" "1")] := by
  refine (exact_throughout ⟨rfl, rfl, rfl, rfl⟩ (.cons ?_ rfl (.cons ?_ rfl .nil))).1
  · rintro m ⟨rfl, -⟩
    exact ⟨fun _ => rfl, by decide +kernel, by decide +kernel⟩
  · rintro m ⟨hlooks, -⟩
    obtain ⟨members, hbody, rfl⟩ := hlooks.body
    cases hbody
    exact ⟨fun _ => rfl, by decide +kernel, by decide +kernel⟩

/-- The version `1` without a build, and the rest of a name in the artifact. -/
def joinedParams : Str → Option Str :=
  Function.update (Function.update (Function.update sampleParams "build_no".toList none)
    "artifact_name".toList (some "1/a".toList)) "checksum".toList (some "d".toList)

/-- **Two coordinates with one name**: both uploads succeed, and the delete of the first coordinate
removes both rows. -/
theorem joined_not_exact :
    Along (serveStep sampleEnv) (UploadSucceeds sampleEnv) sampleStore
        [(allOk, sampleUpload), (allOk, .direct "t".toList joinedParams [1])]
      ∧ ¬ Throughout (Traced.step sampleEnv) (DeletesExactly sampleEnv) ⟨sampleStore, []⟩
        [(allOk, sampleUpload), (allOk, .direct "t".toList joinedParams [1])] := by
  constructor
  · exact .cons (uploadSucceeds_of_ret rfl (by decide +kernel)) rfl
      (.cons (uploadSucceeds_of_ret rfl (by decide +kernel)) rfl .nil)
  · intro h
    have hlast := ((h.2 _ rfl).2 _ rfl).removes sampleArtifact (by decide +kernel) allOk "t".toList
      (.object (sampleMembers "p".toList "1".toList)) _ rfl (by decide +kernel)
      ⟨reply 0 0 "success", by decide +kernel, rfl⟩
    exact absurd hlast (by decide +kernel)

end FiberServer
