import CatalogFS.MountedView
import CatalogFS.MountWrapper
import CatalogFS.LiveReplacement
import CatalogFS.Subtree
import CatalogFS.SearchSafety
import CatalogFS.Offsets
import CatalogFS.Decoding
import CatalogFS.Spelling
import CatalogFS.DirectoryTypes
import CatalogFS.FailedCalls
import CatalogFS.Regeneration
import CatalogFS.Readlink
import CatalogFS.Buffers
import CatalogFS.Queue
import CatalogFS.Descriptors
import CatalogFS.PathBuffers
import CatalogFS.MountedTree
import CatalogFS.LinkedListing
import CatalogFS.Reads
import CatalogFS.Lossless
import CatalogFS.ChangingMount
import CatalogFS.DepthFirst
import CatalogFS.Unreadable
import CatalogFS.Interrupted
import CatalogFS.CutCatalog
import CatalogFS.ConcurrentReplacement
