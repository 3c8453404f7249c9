import IgnoreAtlas.Path.Basic

/-!
# What goes wrong

`Trouble` is a failure told in words, with the failures that caused it. The failures of a scan and
of the holder of all trackers are told apart by their constructors; `chain` is the text of a
failure, followed by those of its causes.
-/

namespace IgnoreAtlas

/-- A failure in words, and what caused it, the nearest cause first. -/
structure Trouble where
  message : String
  causes : List String
  deriving DecidableEq

namespace Trouble

/-- A failure without a cause. -/
def say (message : String) : Trouble := ⟨message, []⟩

/-- The failure as the cause of another. -/
def wrap (t : Trouble) (message : String) : Trouble := ⟨message, t.message :: t.causes⟩

/-- The texts, the failure first. -/
def chain (t : Trouble) : List String := t.message :: t.causes

end Trouble

/-- Why a repository was not scanned. -/
inductive RescanTrouble
  | rootUnavailable (root : Path)
  | walk (detail : String)
  | other (trouble : Trouble)
  deriving DecidableEq

namespace RescanTrouble

/-- The texts, the failure first. -/
def chain : RescanTrouble → List String
  | rootUnavailable root => ["仓库根目录不可访问: " ++ root.display]
  | walk detail => ["遍历失败: " ++ detail, detail]
  | other trouble => trouble.chain

/-- The text of the failure. -/
def message (t : RescanTrouble) : String := t.chain.headD ""

end RescanTrouble

/-- Why the holder of all trackers failed. -/
inductive HolderTrouble
  /-- The tracker of a repository could not be made. -/
  | construction (repository : Path) (source : Trouble)
  /-- Scanning failed in so many repositories; the first of them, and why. -/
  | rescan (repository : Path) (failures : Nat) (source : RescanTrouble)
  deriving DecidableEq

namespace HolderTrouble

/-- The root of the repository that is named. -/
def repository : HolderTrouble → Path
  | construction root _ => root
  | rescan root _ _ => root

/-- The texts, the failure first. -/
def chain : HolderTrouble → List String
  | construction root source =>
    ("无法为仓库 " ++ root.display ++ " 创建忽略文件追踪器: " ++ source.message) :: source.chain
  | rescan root failures source =>
    ("仓库 " ++ root.display ++ " 重新扫描失败（本轮共 " ++ toString failures ++ " 个失败）: " ++
      source.message) :: source.chain

/-- The text of the failure. -/
def message (t : HolderTrouble) : String := t.chain.headD ""

end HolderTrouble

end IgnoreAtlas
