import MkPool.Utils
import MkPool.Lib.Paths

/-! # `dashboard/server.py`: which file a request is served

`translate_path` joins the path of a request to the directory of the static
files. The join does not resolve the components of the path. -/
namespace MkPool.StaticFiles
open MkPool.Lib.Paths MkPool.Utils

/-! ## What Python does -/

/-- `os.path.join` of two texts. -/
def join (a b : Str) : Str :=
  if b.head? = some '/' then b
  else if a = [] ∨ a.getLast? = some '/' then a ++ b
  else a ++ '/' :: b

/-- `str.lstrip("/")`. -/
def lstripSlash (p : Str) : Str := p.dropWhile (· = '/')

/-- The schemes whose last component may have parameters. -/
def usesParams : List Str :=
  ["", "ftp", "hdl", "prospero", "http", "https", "shttp", "rtsp", "rtsps", "rtspu", "sip",
    "sips", "mms", "sftp", "tel"].map String.toList

/-- The scheme of a url, and what follows it. -/
def splitScheme (url : Str) : Str × Str :=
  let scheme := url.takeWhile (· ≠ ':')
  if scheme.length < url.length ∧ scheme.head?.any Char.isAlpha = true
      ∧ scheme.all (fun c => c.isAlphanum || c = '+' || c = '-' || c = '.') = true then
    (scheme.map Char.toLower, url.drop (scheme.length + 1))
  else ([], url)

/-- The host of a url, and what follows it. -/
def splitNetloc (url : Str) : Str × Str :=
  if url.take 2 = ['/', '/'] then
    let netloc := (url.drop 2).takeWhile fun c => c ≠ '/' && c ≠ '?' && c ≠ '#'
    (netloc, url.drop (netloc.length + 2))
  else ([], url)

/-- The url without the parameters of its last component. -/
def splitParams (url : Str) : Str :=
  let last := (url.reverse.takeWhile (· ≠ '/')).reverse
  url.take (url.length - last.length) ++ last.takeWhile (· ≠ ';')

/-- `urlparse(url).path`. An exception is thrown where the host is refused. -/
def urlparse (netlocOk : Str → Bool) (url : Str) : Option Str :=
  let url := (url.dropWhile (·.toNat ≤ 0x20)).filter fun c => c ≠ '\t' && c ≠ '\r' && c ≠ '\n'
  let (scheme, url) := splitScheme url
  let (netloc, url) := splitNetloc url
  if netloc = [] ∨ netlocOk netloc = true then
    let url := (url.takeWhile (· ≠ '#')).takeWhile (· ≠ '?')
    some (if scheme ∈ usesParams ∧ ';' ∈ url then splitParams url else url)
  else none

/-! ## The handler -/

/-- `STATIC_DIR`, by the directory of the program. -/
def staticDir (dirname : Str) : Str := join dirname "static".toList

/-- `translate_path`, by the path of the url. -/
def translatePath (dirname path : Str) : Str :=
  if path = ['/'] then join (staticDir dirname) "index.html".toList
  else join (staticDir dirname) (lstripSlash path)

def apiRoutes : List Str :=
  ["/api/overview", "/api/miners", "/api/analytics", "/api/blocks", "/api/history"].map
    String.toList

/-- `do_GET`: the file that is opened, where no API route answers. -/
def doGet (netlocOk : Str → Bool) (dirname request : Str) : Option Str :=
  (urlparse netlocOk request).bind fun path =>
    if path ∈ apiRoutes then none else some (translatePath dirname path)

/-! ## Where the file lies -/

theorem resolve_join {cwd : List Name} {a b : Str} (hb : b.head? ≠ some '/') :
    resolve cwd (join a b) = walk (resolve cwd a) (components b) := by
  unfold join
  rw [if_neg hb]
  by_cases ha : a = []
  · rw [if_pos (.inl ha), ha, resolve_nil, List.nil_append, resolve, if_neg hb]
  · by_cases hslash : a.getLast? = some '/'
    · rw [if_pos (.inr hslash), resolve_append hslash]
    · rw [if_neg (by simp [ha, hslash]), resolve_append_slash ha]

theorem head_lstripSlash (p : Str) : (lstripSlash p).head? ≠ some '/' := by
  intro h
  have hhead := List.head?_dropWhile_not (· = '/') p
  unfold lstripSlash at h
  rw [h] at hhead
  simp at hhead

/-- Slashes in front of a path do not change its way. -/
theorem wayOf_lstripSlash (p : Str) :
    wayOf (components (lstripSlash p)) = wayOf (components p) := by
  induction p with
  | nil => rfl
  | cons c p ih =>
    by_cases hc : c = '/'
    · subst hc
      rw [components_slash, wayOf_cons_empty, ← ih]
      rfl
    · have hkeep : lstripSlash (c :: p) = c :: p := List.dropWhile_cons_of_neg (by simpa using hc)
      rw [hkeep]

/-- The file of a path is found by walking its components. -/
theorem resolve_translatePath {cwd : List Name} {dirname path : Str} (hpath : path ≠ ['/']) :
    resolve cwd (translatePath dirname path) =
      walk (resolve cwd (staticDir dirname)) (components (lstripSlash path)) := by
  rw [translatePath, if_neg hpath, resolve_join (head_lstripSlash path)]

/-- The path does not climb out of a directory, or it goes down again through
the directories it has climbed out of. -/
def Returns (dir : List Name) (path : Str) : Prop :=
  let way := wayOf (components path)
  dir.drop (dir.length - way.ups) <+: way.downs

end MkPool.StaticFiles
