import Dockerfiles.FileTree.Commands
import Dockerfiles.Shell.Script
import Dockerfiles.Shell.Text

/-! # The entrypoint of the BIND image

`bind/entrypoint.sh` moves the image's default configuration to the data
directory, unless one is there, and puts symbolic links in place of `/etc/bind`
and `/var/lib/bind`. It runs under `set -e`. The data directory is taken for a
single word, as its unquoted expansion then is.
-/

namespace BindImage

open Shell FileTree

/-! ## Trees and paths -/

/-- Owner, group and the permission bits. -/
structure Attr where
  owner : Text
  group : Text
  mode : Nat
  deriving DecidableEq

abbrev FileSystem := Tree Text Text Attr

def component (w : Text) : Comp Text :=
  if w = ['.'] then .here else if w = ['.', '.'] then .up else .name w

/-- The components of a path. -/
def path (t : Text) : List (Comp Text) :=
  ((t.splitOn '/').filter (!·.isEmpty)).map component

def target (t : Text) : Target Text := ⟨t.head? == some '/', path t⟩

def etcName : Text := "etc".toList

def bindName : Text := "bind".toList

def varName : Text := "var".toList

def libName : Text := "lib".toList

def dataName : Text := "data".toList

/-- The place of `/etc/bind`. -/
def etcBind : Place Text := [bindName, etcName]

/-- The place of `/var/lib/bind`. -/
def varLibBind : Place Text := [bindName, libName, varName]

/-- The places of `/data/etc` and `/data/lib`. -/
def dataEtc : Place Text := [etcName, dataName]

def dataLib : Place Text := [libName, dataName]

/-! ## The environment -/

/-- The variables the script reads, `none` for one that is not set, and the mask
for new files. -/
structure Config where
  bindUser : Option Text
  bindDataDir : Option Text
  umask : Nat

namespace Config

/-- `BIND_USER`, by default `named`. -/
def user (c : Config) : Text :=
  match c.bindUser with
  | some (ch :: cs) => ch :: cs
  | _ => "named".toList

/-- `BIND_DATA_DIR`, by default `/data`. -/
def dataDir (c : Config) : Text :=
  match c.bindDataDir with
  | some (ch :: cs) => ch :: cs
  | _ => "/data".toList

def dataPath (c : Config) : List (Comp Text) := path c.dataDir

/-- `${BIND_DATA_DIR}/etc` -/
def etcDir (c : Config) : Text := c.dataDir ++ "/etc".toList

def libDir (c : Config) : Text := c.dataDir ++ "/lib".toList

def root : Text := "root".toList

def newDir (c : Config) : Attr := ⟨root, root, 0o777 - (0o777 &&& c.umask)⟩

def newLink : Attr := ⟨root, root, 0o777⟩

/-- `chown root:${BIND_USER}` -/
def setOwner (c : Config) (a : Attr) : Attr := { a with owner := root, group := c.user }

/-- `chmod 0755` -/
def setMode (a : Attr) : Attr := { a with mode := 0o755 }

end Config

/-! ## The commands -/

variable (c : Config)

/-- A kill can leave the directories of the first components. -/
def mkdir (cs : List (Comp Text)) : Cmd FileSystem where
  effect := Tree.mkdirP c.newDir cs
  cut t t' := ∃ as bs, cs = as ++ bs ∧ t.mkdirP c.newDir as = some t'

/-- A kill can leave some attributes changed. -/
def chmodR (cs : List (Comp Text)) : Cmd FileSystem where
  effect := Tree.chmodR Config.setMode cs
  cut t t' := ∃ f, t' = t.retouch f

def chownR (cs : List (Comp Text)) : Cmd FileSystem where
  effect := Tree.chownR c.setOwner cs
  cut t t' := ∃ f, t' = t.retouch f

def chown (cs : List (Comp Text)) : Cmd FileSystem := .atomic (Tree.chown c.setOwner cs)

def rm (parent : List (Comp Text)) (n : Text) : Cmd FileSystem where
  effect := Tree.rmRf parent n
  cut := Tree.RmRfCut parent n

def ln (source base : Text) (parent : List (Comp Text)) (n : Text) : Cmd FileSystem :=
  .atomic (Tree.lnSf Config.newLink (target source) base parent n)

/-- What a kill or an error inside `mv` can leave of a place `x` moved to `y`. -/
abbrev MoveCut := Place Text → Place Text → FileSystem → FileSystem → Prop

/-- The copy is incomplete, or complete and the source partly removed. -/
def anywhere : MoveCut := fun x y t t' =>
  Tree.Copying (fun part whole => part <+: whole) x y t t' ∨ Tree.Removing x y t t'

def mv (cut : MoveCut) (sp : List (Comp Text)) (s : Text) (dp : List (Comp Text)) (d : Text) :
    Cmd FileSystem where
  effect := Tree.mv sp s dp d
  cut t t' := ∃ a p, t.Moves sp s dp d a p ∧ cut (s :: a) (d :: p) t t'

section Effects

variable (cs : List (Comp Text))

@[simp] theorem mkdir_effect : (mkdir c cs).effect = Tree.mkdirP c.newDir cs := rfl

@[simp] theorem chmodR_effect : (chmodR cs).effect = Tree.chmodR Config.setMode cs := rfl

@[simp] theorem chownR_effect : (chownR c cs).effect = Tree.chownR c.setOwner cs := rfl

@[simp] theorem chown_effect : (chown c cs).effect = Tree.chown c.setOwner cs := rfl

end Effects

section Leaves

variable {c} {cs : List (Comp Text)} {t t' : FileSystem}

theorem mkdir_leaves (h : (mkdir c cs).Leaves t t') : Tree.Grows c.newDir cs t t' := by
  rcases h with he | ⟨as, bs, rfl, he⟩
  · exact Tree.mkdirP_grows he
  · exact (Tree.mkdirP_grows he).mono (List.subset_append_left as bs)

theorem chmodR_leaves (h : (chmodR cs).Leaves t t') : t'.kind = t.kind := by
  rcases h with he | ⟨f, rfl⟩
  · exact Tree.chmodR_kind he
  · exact t.retouch_kind f

theorem chownR_leaves (h : (chownR c cs).Leaves t t') : t'.kind = t.kind := by
  rcases h with he | ⟨f, rfl⟩
  · exact Tree.chownR_kind he
  · exact t.retouch_kind f

theorem chown_leaves (h : (chown c cs).Leaves t t') : t'.kind = t.kind := by
  rcases h with he | hf
  · exact Tree.chown_kind he
  · exact hf.elim

end Leaves

/-! ## The script -/

def createBindDataDir (cut : MoveCut) : List (Cmd FileSystem) :=
  [mkdir c c.dataPath,
    chmodR c.dataPath,
    chownR c c.dataPath,
    -- populate default bind configuration if it does not exist
    .when (fun t => !t.leadsToDir (path c.etcDir))
      [mv cut [.name etcName] bindName c.dataPath etcName],
    rm [.name etcName] bindName,
    ln c.etcDir etcName [.name etcName] bindName,
    .when (fun t => !t.leadsToDir (path c.libDir))
      [mkdir c (path c.libDir),
        chown c (path c.libDir)],
    rm [.name varName, .name libName] bindName,
    ln c.libDir libName [.name varName, .name libName] bindName]

def createPidDir : List (Cmd FileSystem) :=
  [mkdir c (path "/var/run/named".toList),
    chown c (path "/var/run/named".toList)]

def createBindCacheDir : List (Cmd FileSystem) :=
  [mkdir c (path "/var/cache/bind".toList),
    chown c (path "/var/cache/bind".toList)]

/-- The script up to the launch of `named`. -/
def entrypoint (cut : MoveCut) : List (Cmd FileSystem) :=
  createPidDir c ++ createBindDataDir c cut ++ createBindCacheDir c

/-! ## Paths of the script -/

theorem path_append {w : Text} (d : Text) (hw : '/' ∉ w) (hne : w ≠ []) :
    path (d ++ '/' :: w) = path d ++ [component w] := by
  have hs : w.splitOn '/' = [w] := List.splitOn_eq_singleton hw
  simp [path, List.splitOn_append_cons_self, hs, hne]

theorem path_etcDir : path c.etcDir = c.dataPath ++ [.name etcName] :=
  path_append c.dataDir (by decide) (by decide)

theorem path_libDir : path c.libDir = c.dataPath ++ [.name libName] :=
  path_append c.dataDir (by decide) (by decide)

variable {c}

theorem target_etcDir (h : c.dataDir.head? = some '/') :
    target c.etcDir = ⟨true, c.dataPath ++ [.name etcName]⟩ := by
  rw [target, path_etcDir]
  simp [Config.etcDir, h]

theorem target_libDir (h : c.dataDir.head? = some '/') :
    target c.libDir = ⟨true, c.dataPath ++ [.name libName]⟩ := by
  rw [target, path_libDir]
  simp [Config.libDir, h]

/-- `/etc` and `/var/lib` are directories, as in the image. -/
structure Layout (t : FileSystem) : Prop where
  etc_dir : t.kind [etcName] = some .dir
  lib_dir : t.kind [libName, varName] = some .dir

/-- The volume is mounted at `/data`. -/
structure Base (t : FileSystem) : Prop where
  layout : Layout t
  data : t.kind [dataName] = some .dir

section Mono

variable {t t' : FileSystem}

theorem Layout.mono (h : Layout t)
    (hk : ∀ q, q = [etcName] ∨ q = [libName, varName] → t.kind q = some .dir →
      t'.kind q = some .dir) : Layout t' :=
  ⟨hk _ (.inl rfl) h.etc_dir, hk _ (.inr rfl) h.lib_dir⟩

theorem Layout.within (h : Layout t) (hw : Within t.kind t'.kind) : Layout t' :=
  h.mono fun q _ hq => hw q _ hq

theorem Base.mono (h : Base t)
    (hk : ∀ q, q = [etcName] ∨ q = [libName, varName] ∨ q = [dataName] →
      t.kind q = some .dir → t'.kind q = some .dir) : Base t' where
  layout := h.layout.mono fun q hq => hk q (hq.imp_right .inl)
  data := hk _ (.inr (.inr rfl)) h.data

theorem Base.within (h : Base t) (hw : Within t.kind t'.kind) : Base t' :=
  h.mono fun q _ hq => hw q _ hq

theorem Base.of_kind (h : Base t) (hk : t'.kind = t.kind) : Base t' := by
  refine h.within ?_
  rw [hk]
  exact Within.refl _

end Mono

theorem Layout.resolve_etc {t : FileSystem} (h : Layout t) :
    t.resolve [.name etcName] = .found [etcName] := t.resolve_dir h.etc_dir

theorem Base.resolve_data {t : FileSystem} (h : Base t) :
    t.resolve [.name dataName] = .found [dataName] := t.resolve_dir h.data

theorem leads_etcDir {t : FileSystem} (hd : c.dataPath = [.name dataName])
    (hk : t.kind dataEtc = some .dir) : t.leadsToDir (path c.etcDir) = true := by
  rw [path_etcDir, hd]
  exact t.leadsToDir_dir hk

theorem Layout.resolve_lib {t : FileSystem} (h : Layout t) :
    t.resolve [.name varName, .name libName] = .found [libName, varName] := t.resolve_dir h.lib_dir

/-- The directories of the two places that are replaced, by path and by place. -/
def parents : List (List (Comp Text) × Place Text) :=
  [([.name etcName], [etcName]), ([.name varName, .name libName], [libName, varName])]

theorem etc_mem_parents : ([.name etcName], [etcName]) ∈ parents := List.mem_cons_self

theorem lib_mem_parents : ([.name varName, .name libName], [libName, varName]) ∈ parents :=
  List.mem_cons_of_mem _ List.mem_cons_self

theorem Layout.parent {t : FileSystem} (h : Layout t) {parent : List (Comp Text)} {p : Place Text}
    (hm : (parent, p) ∈ parents) : t.resolve parent = .found p ∧ t.isDir p = true := by
  simp only [parents, List.mem_cons, Prod.mk.injEq, List.not_mem_nil, or_false] at hm
  rcases hm with ⟨rfl, rfl⟩ | ⟨rfl, rfl⟩
  · exact ⟨h.resolve_etc, (t.isDir_iff _).mpr h.etc_dir⟩
  · exact ⟨h.resolve_lib, (t.isDir_iff _).mpr h.lib_dir⟩

section Replacing

variable {t t' : FileSystem} {parent : List (Comp Text)} {p : Place Text}

theorem Layout.rm_eq (h : Layout t) (hm : (parent, p) ∈ parents)
    (he : (rm parent bindName).effect t = some t') : t' = t.prune bindName p := by
  obtain ⟨hr, hd⟩ := h.parent hm
  exact Option.some.inj (he.symm.trans (Tree.rmRf_eq hr hd))

theorem Layout.rm_gone (h : Layout t) (hm : (parent, p) ∈ parents)
    (he : (rm parent bindName).effect t = some t') : t'.kind (bindName :: p) = none := by
  rw [h.rm_eq hm he, Tree.prune_kind]
  exact if_pos (List.suffix_refl _)

/-- Nothing is removed but at and below the one place. -/
theorem Layout.rm_leaves (h : Layout t) (hm : (parent, p) ∈ parents)
    (hl : (rm parent bindName).Leaves t t') {q : Place Text} (hq : ¬ bindName :: p <:+ q) :
    t'.kind q = t.kind q := by
  rcases hl with he | ⟨p', hr, hcut⟩
  · rw [h.rm_eq hm he, Tree.prune_kind]
    exact if_neg hq
  · rw [(h.parent hm).1] at hr
    cases hr
    rcases hcut q with he | ⟨hb, _⟩
    · exact Tree.kind_congr he
    · exact absurd hb hq

theorem Layout.ln_eq {source base : Text} (h : Layout t) (hm : (parent, p) ∈ parents)
    (hk : t.kind (bindName :: p) = none) (he : (ln source base parent bindName).effect t = some t') :
    ∃ hp hn, t' = t.put bindName p ⟨.link (target source), Config.newLink⟩ hp hn := by
  obtain ⟨hr, hd⟩ := h.parent hm
  have hn : t.isDir (bindName :: p) = false := by simp [Tree.isDir, hk]
  exact ⟨hd, hn, Option.some.inj (he.symm.trans (Tree.lnSf_eq hr hd hn hk))⟩

/-- `t'` differs from `t` at and below the place alone. -/
def SameElsewhere (x : Place Text) (t t' : FileSystem) : Prop :=
  ∀ q, ¬ x <:+ q → t'.kind q = t.kind q

variable {W I J : FileSystem → Prop} {R : FileSystem → FileSystem → Prop}

/-- The rule for the first half of a replacement. -/
theorem rm_rule (hm : (parent, p) ∈ parents) (hw : ∀ t, I t → W t) (layout : ∀ t, I t → Layout t)
    (keep : ∀ t t', I t → SameElsewhere (bindName :: p) t t' → I t' ∧ R t t') :
    (rm parent bindName).Meets W R I (fun t => I t ∧ t.kind (bindName :: p) = none) := by
  intro t t' h
  have same : (rm parent bindName).Leaves t t' → SameElsewhere (bindName :: p) t t' :=
    fun hl _ hq => (layout t h).rm_leaves hm hl hq
  refine ⟨fun he => ?_, fun hk => ?_⟩
  · obtain ⟨hi, hr⟩ := keep t t' h (same (.inl he))
    exact ⟨⟨hi, (layout t h).rm_gone hm he⟩, hr⟩
  · obtain ⟨hi, hr⟩ := keep t t' h (same (.inr hk))
    exact ⟨hw t' hi, hr⟩

/-- The rule for the second half. -/
theorem ln_rule {source base : Text} (hm : (parent, p) ∈ parents) (layout : ∀ t, I t → Layout t)
    (keep : ∀ t t', I t → SameElsewhere (bindName :: p) t t' →
      t'.kind (bindName :: p) = some (.link (target source)) → J t' ∧ R t t') :
    (ln source base parent bindName).Meets W R
      (fun t => I t ∧ t.kind (bindName :: p) = none) J := by
  refine .atomic fun t t' hpre he => ?_
  obtain ⟨h, hk⟩ := hpre
  obtain ⟨hp, hn, rfl⟩ := (layout t h).ln_eq hm hk he
  refine keep t _ h ?_ ?_
  · intro q hq
    have hne : q ≠ bindName :: p := fun he => hq (he ▸ List.suffix_refl _)
    rw [Tree.put_kind, if_neg hne]
  · rw [Tree.put_kind, if_pos rfl]

/-- The move, stopped inside it or not, where the destination is no directory. -/
theorem Layout.mv_leaves {c : Config} {cut : MoveCut} {P : Place Text} (h : Layout t)
    (hr : ∀ p, t.resolve c.dataPath = .found p → p = P) (hl : t.leadsToDir (path c.etcDir) = false)
    (hlv : (mv cut [.name etcName] bindName c.dataPath etcName).Leaves t t') :
    t.isDir (etcName :: P) = false ∧
      (Tree.Removing etcBind (etcName :: P) t t' ∨ cut etcBind (etcName :: P) t t') := by
  have places : ∀ a p, t.Moves [.name etcName] bindName c.dataPath etcName a p →
      a = [etcName] ∧ p = P ∧ t.isDir (etcName :: P) = false := by
    rintro a p ⟨hs, hd, _, hc⟩
    rw [h.resolve_etc] at hs
    cases hs
    obtain rfl := hr p hd
    exact ⟨rfl, rfl, (Tree.canMove_iff.mp hc).2.2.2.1⟩
  rcases hlv with he | ⟨a, p, hm, hcut⟩
  · rw [path_etcDir] at hl
    obtain ⟨a, p, hp, hx, hm, rfl⟩ := Tree.mv_eq_some he hl
    obtain ⟨rfl, rfl, hd⟩ := places a p hm
    exact ⟨hd, .inl (Tree.graft_removing hp hx)⟩
  · obtain ⟨rfl, rfl, hd⟩ := places a p hm
    exact ⟨hd, .inr hcut⟩

end Replacing

/-! ## Runs of a container -/

/-- The file systems a container with the volume mounted at `P` can have: made
from the image on a volume, left behind by a start, made again from the image on
the same volume, or edited between starts. -/
inductive Reachable (image : FileSystem) (P : Place Text) (volume : FileSystem → Prop)
    (script : List (Cmd FileSystem)) (edit : FileSystem → FileSystem → Prop) : FileSystem → Prop
  | create {v : FileSystem} (hi : image.isDir P = true) (hv : v.isDir P = true) :
      volume v → Reachable image P volume script edit (image.mount v P hi hv)
  | start {t t' : FileSystem} : Reachable image P volume script edit t → Stops script t t' →
      Reachable image P volume script edit t'
  | recreate {t : FileSystem} (hi : image.isDir P = true) (ht : t.isDir P = true) :
      Reachable image P volume script edit t →
        Reachable image P volume script edit (image.mount t P hi ht)
  | edit {t t' : FileSystem} : Reachable image P volume script edit t → edit t t' →
      Reachable image P volume script edit t'

/-! ## A small image -/

def confName : Text := "named.conf".toList

def dirNode : Node Text Text Attr := ⟨.dir, ⟨Config.root, Config.root, 0o755⟩⟩

def fileNode (content : String) : Node Text Text Attr :=
  ⟨.file content.toList, ⟨Config.root, Config.root, 0o644⟩⟩

/-- An image with one file of default configuration and an empty `/data`. -/
def smallImage : FileSystem :=
  .ofList dirNode.attr [([etcName], dirNode), (etcBind, dirNode),
    (confName :: etcBind, fileNode "options"), ([varName], dirNode),
    ([libName, varName], dirNode), (varLibBind, dirNode), ([dataName], dirNode)]

theorem smallImage_data : smallImage.isDir [dataName] = true := by decide +kernel

/-- The environment of the image: no variable set, the usual mask. -/
def Config.default : Config := ⟨none, none, 0o022⟩

end BindImage
