import McpTemplate.Proofs.SsrfGuard
import McpTemplate.Proofs.DirectoryWalk
import McpTemplate.Proofs.Frontmatter
import McpTemplate.Lib.Lines
import McpTemplate.Proofs.Dispatch
import McpTemplate.Proofs.Resolve
import McpTemplate.Lib.Hex
import McpTemplate.Proofs.Drive
import McpTemplate.Proofs.Confine
import McpTemplate.Proofs.HostGuard
import McpTemplate.Proofs.Rendering
import McpTemplate.Proofs.LocalNames
import McpTemplate.Proofs.Outbound
import McpTemplate.Proofs.LineEndings
import McpTemplate.Proofs.Catalog
import McpTemplate.Proofs.Listing
import McpTemplate.Proofs.Templates
import McpTemplate.Proofs.Site
import McpTemplate.Proofs.HttpGet
import McpTemplate.Proofs.HandOver
import McpTemplate.Proofs.Tasks
import McpTemplate.Proofs.Binding
import McpTemplate.Proofs.Surface
