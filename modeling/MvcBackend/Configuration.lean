import MvcBackend.Authentication
import MvcBackend.Library.Transaction

/-!
`Config`: a JSON file whose keys may be read from files of their own, and the
classes that read it.
-/

namespace MvcBackend.Configuration

open MvcBackend.JsonValues
open MvcBackend.DataModel
open MvcBackend.Authentication
open MvcBackend.Library.Transaction

/-- The files that there are, and how nlohmann::json reads a text. -/
structure Files where
  read : (path : Str) → Option Str
  parseJson : (text : Str) → Except Str Json

inductive LoadError where
  | couldNotOpen (path : Str)
  | parseError (what : Str)
  | json (e : JsonException)
  /-- Iterator number 207: `key()` of an element that is in no object. -/
  | invalidIterator
  /-- The iteration goes on over an object that has been assigned to. -/
  | undefined

inductive ConfigError where
  | failedToLoad (path : Str) (cause : LoadError)
  | failedToReadKey (key : Str) (cause : JsonException)

section

variable (files : Files)

def loadJsonFromFile (path : Str) : Except LoadError Json :=
  match files.read path with
  | none => .error (.couldNotOpen path)
  | some text => (files.parseJson text).mapError .parseError

/-- `j[key] = value` of an object. -/
def setMember (key : Str) (value : Json) : List (Str × Json) → List (Str × Json)
  | [] => [(key, value)]
  | (k, v) :: members =>
      if k = key then (key, value) :: members else (k, v) :: setMember key value members

def loadFromFiles : Str := str "load_from_files"

/-- The value to assign is there before the key is asked for. -/
def loadNamedFile (name : Json) : Except LoadError Json :=
  match name.getToString with
  | .ok path => loadJsonFromFile files path
  | .error e => .error (.json e)

/-- The loop over the members of `load_from_files`, from the members of `j`. -/
def loadMembers : List (Str × Json) → List (Str × Json) → Except LoadError (List (Str × Json))
  | [], members => .ok members
  | (key, name) :: rest, members => do
      let value ← loadNamedFile files name
      if key = loadFromFiles then throw .undefined
      loadMembers rest (setMember key value members)

/-- Null has no elements, and any other value but an object or an array is its
own only element. -/
def loadIndirectKeys : Json → Except LoadError Json
  | .object members =>
      match members.lookup loadFromFiles with
      | none => .ok (.object members)
      | some .null => .ok (.object members)
      | some (.object named) => (loadMembers files named members).map .object
      | some (.array []) => .ok (.object members)
      | some (.array (name :: _)) => do
          let _ ← loadNamedFile files name
          throw .invalidIterator
      | some name => do
          let _ ← loadNamedFile files name
          throw .invalidIterator
  | j => .ok j

/-- The constructor of `Config`. -/
def loadConfig (path : Str) : Except ConfigError Json :=
  (loadJsonFromFile files path >>= loadIndirectKeys files).mapError (.failedToLoad path)

end

def get {α : Type} (read : Json → Except JsonException α) (config : Json) (key : Str) :
    Except ConfigError α :=
  (config.atKey key >>= read).mapError (.failedToReadKey key)

def getInt : Json → Str → Except ConfigError Int := get Json.getToInt

def getString : Json → Str → Except ConfigError Str := get Json.getToString

/-- `static_cast<size_t>` of an `int`. -/
def sizeOfInt (n : Int) : Nat := (n % 2 ^ 64).toNat

def readAuthConfig (config : Json) : Except ConfigError AuthConfig := do
  let publicKey ← getString config (str "auth_public_key")
  let issuer ← getString config (str "auth_issuer")
  let defaultRole ← getString config (str "auth_default_role")
  let adminRole ← getString config (str "auth_admin_role")
  let bootstrapAdminUser ← getString config (str "auth_bootstrap_admin_user")
  let jwtLeewaySecs ← getInt config (str "auth_jwt_leeway_secs")
  return ⟨publicKey, issuer, ⟨defaultRole⟩, ⟨adminRole⟩, ⟨bootstrapAdminUser⟩,
    sizeOfInt jwtLeewaySecs⟩

def readHttpListenAddr (config : Json) : Except ConfigError Str :=
  getString config (str "http_listen_addr")

def readSqliteDbPath (config : Json) : Except ConfigError Str :=
  getString config (str "sqlite_db_path")

/-! ### Keys that have files of their own -/

theorem lookup_cons_ne {key k : Str} (h : key ≠ k) (value : Json) (members : List (Str × Json)) :
    List.lookup key ((k, value) :: members) = members.lookup key := by
  rw [List.lookup_cons, beq_false_of_ne h]

theorem lookup_setMember (key k : Str) (value : Json) (members : List (Str × Json)) :
    (setMember key value members).lookup k = if k = key then some value else members.lookup k := by
  fun_induction setMember key value members with
  | case1 =>
      by_cases h : k = key
      · simp [h]
      · rw [lookup_cons_ne h, if_neg h]
  | case2 v members =>
      by_cases h : k = key
      · simp [h]
      · rw [lookup_cons_ne h, lookup_cons_ne h, if_neg h]
  | case3 k' v members hne ih =>
      by_cases h : k = k'
      · simp [h, hne]
      · rw [lookup_cons_ne h, lookup_cons_ne h, ih]

variable {files : Files}

/-- `name` names a file, and this file holds `value`. -/
def Names (files : Files) (name value : Json) : Prop :=
  ∃ path, name = .string path ∧ loadJsonFromFile files path = .ok value

theorem loadNamedFile_eq_ok {name value : Json} :
    loadNamedFile files name = .ok value ↔ Names files name value := by
  cases name <;> simp [loadNamedFile, Json.getToString, Names]

theorem Names.unique {name value value' : Json} (h : Names files name value)
    (h' : Names files name value') : value = value' := by
  rw [← loadNamedFile_eq_ok] at h h'
  exact Except.ok.inj (h.symm.trans h')

/-- Each member is assigned what its file holds; the others stay. -/
theorem loadMembers_eq_ok {named members result : List (Str × Json)}
    (hself : loadFromFiles ∉ named.map Prod.fst) (hkeys : (named.map Prod.fst).Nodup)
    (h : loadMembers files named members = .ok result) (key : Str) :
    (∀ name, named.lookup key = some name →
      ∃ value, Names files name value ∧ result.lookup key = some value) ∧
    (named.lookup key = none → result.lookup key = members.lookup key) := by
  induction named generalizing members with
  | nil =>
      obtain rfl := Except.ok.inj h
      simp
  | cons member named ih =>
      obtain ⟨k, name⟩ := member
      rw [List.map_cons, List.mem_cons, not_or] at hself
      rw [List.map_cons, List.nodup_cons] at hkeys
      obtain ⟨value, hvalue, h⟩ := bind_eq_ok.mp h
      rw [if_neg (Ne.symm hself.1)] at h
      obtain ⟨hloaded, hkept⟩ := ih hself.2 hkeys.2 h
      by_cases hk : key = k
      · subst hk
        have hlater : named.lookup key = none := by
          rw [List.lookup_eq_none_iff]
          intro later hlater
          exact bne_iff_ne.mpr fun heq => hkeys.1 (List.mem_map.mpr ⟨later, hlater, heq.symm⟩)
        refine ⟨fun name' hname' => ?_, fun hnone => ?_⟩
        · obtain rfl : name = name' := by simpa using hname'
          refine ⟨value, loadNamedFile_eq_ok.mp hvalue, ?_⟩
          rw [hkept hlater, lookup_setMember, if_pos rfl]
        · simp at hnone
      · rw [lookup_cons_ne hk]
        refine ⟨hloaded, fun hnone => ?_⟩
        rw [hkept hnone, lookup_setMember, if_neg hk]

theorem exists_loadMembers_iff (members : List (Str × Json)) {named : List (Str × Json)}
    (hself : loadFromFiles ∉ named.map Prod.fst) :
    (∃ result, loadMembers files named members = .ok result) ↔
      ∀ member ∈ named, ∃ value, Names files member.2 value := by
  induction named generalizing members with
  | nil => simp [loadMembers]
  | cons member named ih =>
      obtain ⟨k, name⟩ := member
      rw [List.map_cons, List.mem_cons, not_or] at hself
      simp only [loadMembers, bind_eq_ok, if_neg (Ne.symm hself.1), loadNamedFile_eq_ok]
      rw [List.forall_mem_cons]
      constructor
      · rintro ⟨result, value, hvalue, hresult⟩
        exact ⟨⟨value, hvalue⟩, (ih _ hself.2).mp ⟨result, hresult⟩⟩
      · rintro ⟨⟨value, hvalue⟩, hrest⟩
        obtain ⟨result, hresult⟩ := (ih (setMember k value members) hself.2).mpr hrest
        exact ⟨result, value, hvalue, hresult⟩

/-- A configuration loads if and only if every file that it names does; a key
under `load_from_files` then has what its file holds, whatever the
configuration itself gives it, and every other key is as it was. -/
theorem keys_loaded_from_files (files : Files) (path : Str) (members named : List (Str × Json))
    (hpath : loadJsonFromFile files path = .ok (.object members))
    (hnamed : members.lookup loadFromFiles = some (.object named))
    (hkeys : (named.map Prod.fst).Nodup) (hself : loadFromFiles ∉ named.map Prod.fst) :
    ((∃ config, loadConfig files path = .ok config) ↔
      ∀ member ∈ named, ∃ value, Names files member.2 value) ∧
    ∀ config, loadConfig files path = .ok config → ∀ key,
      (∀ name, named.lookup key = some name →
        ∃ value, Names files name value ∧ config.atKey key = .ok value) ∧
      (named.lookup key = none → config.atKey key = (Json.object members).atKey key) := by
  have hload : ∀ config, loadConfig files path = .ok config ↔
      ∃ result, loadMembers files named members = .ok result ∧ .object result = config := by
    intro config
    rw [loadConfig, mapError_eq_ok, hpath]
    show loadIndirectKeys files (.object members) = .ok config ↔ _
    simp only [loadIndirectKeys, hnamed]
    cases loadMembers files named members <;> simp [Except.map]
  constructor
  · rw [← exists_loadMembers_iff members hself]
    constructor
    · rintro ⟨config, hconfig⟩
      obtain ⟨result, hresult, -⟩ := (hload config).mp hconfig
      exact ⟨result, hresult⟩
    · rintro ⟨result, hresult⟩
      exact ⟨_, (hload _).mpr ⟨result, hresult, rfl⟩⟩
  · intro config hconfig key
    obtain ⟨result, hresult, rfl⟩ := (hload config).mp hconfig
    obtain ⟨hloaded, hkept⟩ := loadMembers_eq_ok hself hkeys hresult key
    constructor
    · intro name hname
      obtain ⟨value, hvalue, hlookup⟩ := hloaded name hname
      exact ⟨value, hvalue, by simp [Json.atKey, hlookup]⟩
    · intro hnone
      simp [Json.atKey, hkept hnone]

/-- A configuration whose public key is in a file of its own. -/
def keyMembers : List (Str × Json) :=
  [(str "auth_issuer", .string (str "issuer")), (str "auth_public_key", .string []),
    (loadFromFiles, .object [(str "auth_public_key", .string (str "key.json"))])]

def keyFiles : Files where
  read path :=
    if path = str "config.json" ∨ path = str "key.json" then some path else none
  parseJson text :=
    if text = str "config.json" then .ok (.object keyMembers) else .ok (.string (str "PEM"))

theorem keys_loaded_from_files_key :
    ∃ config, loadConfig keyFiles (str "config.json") = .ok config ∧
      config.atKey (str "auth_public_key") = .ok (.string (str "PEM")) := by
  have hname : Names keyFiles (.string (str "key.json")) (.string (str "PEM")) :=
    ⟨str "key.json", rfl, rfl⟩
  obtain ⟨hloads, hkeys⟩ := keys_loaded_from_files keyFiles (str "config.json") keyMembers
    [(str "auth_public_key", .string (str "key.json"))] rfl rfl (by decide) (by decide)
  obtain ⟨config, hconfig⟩ := hloads.mpr (by simpa using ⟨_, hname⟩)
  obtain ⟨value, hvalue, hat⟩ :=
    (hkeys config hconfig (str "auth_public_key")).1 (.string (str "key.json")) rfl
  refine ⟨config, hconfig, ?_⟩
  rw [hat, hvalue.unique hname]

end MvcBackend.Configuration
